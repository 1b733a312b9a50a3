import EasyJit.RegisterBitcode
import EasyJit.Proofs.Relocated
import EasyJit.Sample

/-!
# Which objects are exposed

Exactly the definitions that were annotated, have a name that the regular expression matches, or
are functions or constants that an argument of the compiler interface may be
(`mem_collectObjectsToJIT`). Only the last of these are looked at for being constant, so that
nothing but functions and constants is exposed when the others happen to be. A copy of a constant
holds what the host's does when no address is in it: in the copy, functions are where the engine
put them (`collectObjectsToJIT_onlyImmutable_iff`). An object that is put into the section loses
the one it was in (`collectObjectsToJIT_marksInvisibly_iff`).
-/

namespace EasyJit

open LLVM Linker

section

variable {ν : Type} [DecidableEq ν] {M : HostModule ν} {E : EasyExport} {X : ν}

/-! ## Sections -/

theorem exposeIf_apply (p : ν → Bool) (getSection : ν → String) :
    M.exposeIf p getSection X
      = if X ∈ M.globalObjects ∧ p X = true then JIT_SECTION else getSection X := by
  unfold HostModule.exposeIf
  induction M.globalObjects generalizing getSection with
  | nil => simp
  | cons GO GOs ih =>
    rw [List.foldl_cons, ih]
    by_cases hX : X = GO
    · subst hX
      by_cases hp : p X = true <;> simp [hp]
    · have hother : (if p GO = true then Function.update getSection GO JIT_SECTION
          else getSection) X = getSection X := by
        split_ifs
        · exact Function.update_of_ne hX _ _
        · rfl
      simp only [hother, List.mem_cons, hX, false_or]

theorem foldl_exposeIf (p : ν → ν → Bool) : ∀ (Os : List ν) (getSection : ν → String),
    Os.foldl (fun getSection O => M.exposeIf (p O) getSection) getSection X
      = if X ∈ M.globalObjects ∧ ∃ O ∈ Os, p O X = true then JIT_SECTION else getSection X
  | [], getSection => by simp
  | O :: Os, getSection => by
    rw [List.foldl_cons, foldl_exposeIf p Os, exposeIf_apply]
    by_cases hX : X ∈ M.globalObjects <;> by_cases hO : p O X = true <;> simp [hX, hO]

/-- The objects that are exposed without a look at whether they are constant. -/
def HostModule.Requested (M : HostModule ν) (E : EasyExport) (X : ν) : Prop :=
  M.getSection X = JIT_SECTION ∨ E.isMatch (M.getName X) = true

/-- A function or constant that an argument of the compiler interface may be. -/
def HostModule.Deduced (M : HostModule ν) (X : ν) : Prop :=
  M.isConstant X = true
    ∧ ∃ O ∈ M.interfaceArguments, MayAliasTracer.count M.toValueGraph O X = true

open Classical in
/-- The sections in which the objects are collected. -/
theorem section_eq : regexFunctionsToJIT M E (M.deduceObjectsToJIT M.getSection) X
    = if X ∈ M.globalObjects ∧ (E.isMatch (M.getName X) = true ∨ M.Deduced X) then JIT_SECTION
      else M.getSection X := by
  have hdeduce : M.deduceObjectsToJIT M.getSection X
      = if X ∈ M.globalObjects ∧ M.Deduced X then JIT_SECTION else M.getSection X := by
    rw [HostModule.deduceObjectsToJIT, foldl_exposeIf fun O GO =>
      M.isConstant GO && MayAliasTracer.count M.toValueGraph O GO]
    refine if_congr (and_congr_right fun _ => ?_) rfl rfl
    simp only [Bool.and_eq_true]
    constructor
    · rintro ⟨O, hO, hconst, hcount⟩
      exact ⟨hconst, O, hO, hcount⟩
    · rintro ⟨hconst, O, hO, hcount⟩
      exact ⟨O, hO, hconst, hcount⟩
  unfold regexFunctionsToJIT EasyExport.isMatch
  by_cases hempty : E.RegexString = ""
  · simp [hempty, hdeduce]
  · rw [if_neg hempty, exposeIf_apply, hdeduce]
    by_cases hmatch : E.match? E.RegexString (M.getName X) = true <;>
      by_cases hX : X ∈ M.globalObjects <;> simp [hempty, hmatch, hX]

theorem section_eq_iff (hX : X ∈ M.globalObjects) :
    regexFunctionsToJIT M E (M.deduceObjectsToJIT M.getSection) X = JIT_SECTION
      ↔ M.Requested E X ∨ M.Deduced X := by
  rw [section_eq, HostModule.Requested]
  split_ifs with h
  · exact iff_of_true rfl (h.2.imp_left .inr)
  · rw [not_and, not_or] at h
    obtain ⟨hmatch, hdeduced⟩ := h hX
    rw [or_iff_left hdeduced, or_iff_left hmatch]

/-- An object that is in the section is taken out of it. -/
theorem collectObject_fst (st : (ν → String) × List ν) (GO : ν) : (collectObject M st GO).1 X
    = if X = GO ∧ st.1 X = JIT_SECTION then "" else st.1 X := by
  unfold collectObject
  by_cases hX : X = GO
  · subst hX
    by_cases hGO : st.1 X = JIT_SECTION
    · cases M.canExtractBitcode X <;> simp [hGO]
    · simp [hGO]
  · by_cases hGO : st.1 GO = JIT_SECTION
    · cases M.canExtractBitcode GO <;> simp [hGO, hX]
    · simp [hGO, hX]

/-- And collected, if it is defined. -/
theorem collectObject_snd (st : (ν → String) × List ν) (GO : ν) : (collectObject M st GO).2
    = if st.1 GO = JIT_SECTION ∧ M.canExtractBitcode GO = true then st.2 ++ [GO] else st.2 := by
  unfold collectObject
  by_cases hGO : st.1 GO = JIT_SECTION
  · cases M.canExtractBitcode GO <;> simp [hGO]
  · simp [hGO]

/-- The loop over the global objects collects those that are in the section. -/
theorem mem_foldl_collectObject : ∀ (GOs : List ν) (st : (ν → String) × List ν),
    X ∈ (GOs.foldl (collectObject M) st).2
      ↔ X ∈ st.2 ∨ X ∈ GOs ∧ st.1 X = JIT_SECTION ∧ M.canExtractBitcode X = true
  | [], st => by simp
  | GO :: GOs, st => by
    have hempty : "" ≠ JIT_SECTION := by decide
    rw [List.foldl_cons, mem_foldl_collectObject GOs, collectObject_fst, collectObject_snd]
    by_cases hX : X = GO
    · subst hX
      by_cases hsection : st.1 X = JIT_SECTION
      · by_cases hextract : M.canExtractBitcode X = true <;> simp [hsection, hextract, hempty]
      · simp [hsection]
    · by_cases hput : st.1 GO = JIT_SECTION ∧ M.canExtractBitcode GO = true <;> simp [hX, hput]

/-- It leaves nothing in the section. -/
theorem foldl_collectObject_section : ∀ (GOs : List ν) (st : (ν → String) × List ν),
    (GOs.foldl (collectObject M) st).1 X
      = if X ∈ GOs ∧ st.1 X = JIT_SECTION then "" else st.1 X
  | [], st => by simp
  | GO :: GOs, st => by
    have hempty : "" ≠ JIT_SECTION := by decide
    rw [List.foldl_cons, foldl_collectObject_section GOs, collectObject_fst]
    by_cases hX : X = GO
    · subst hX
      by_cases hsection : st.1 X = JIT_SECTION <;> simp [hsection, hempty]
    · simp [hX]

/-- What was collected is no longer in the section, so nothing is collected twice. -/
theorem foldl_collectObject_nodup : ∀ (GOs : List ν) (st : (ν → String) × List ν),
    st.2.Nodup → (∀ Y ∈ st.2, st.1 Y ≠ JIT_SECTION) →
    (GOs.foldl (collectObject M) st).2.Nodup
  | [], st, hst, _ => hst
  | GO :: GOs, st, hst, hout => by
    have hempty : "" ≠ JIT_SECTION := by decide
    rw [List.foldl_cons]
    refine foldl_collectObject_nodup GOs _ ?_ fun Y hY => ?_
    · rw [collectObject_snd]
      split_ifs with hput
      · have hnew : GO ∉ st.2 := fun h => hout GO h hput.1
        exact hst.append (List.nodup_singleton GO) (by simpa using hnew)
      · exact hst
    · rw [collectObject_fst]
      split_ifs with hin
      · exact hempty
      · intro hsection
        -- an object that was collected just now was taken out
        have hother : Y ∈ st.2 := by
          rw [collectObject_snd] at hY
          split_ifs at hY with hput
          · rcases List.mem_append.1 hY with hY | hY
            · exact hY
            · exact absurd ⟨List.mem_singleton.1 hY, hsection⟩ hin
          · exact hY
        exact hout Y hother hsection

/-- What is exposed. -/
theorem mem_collectObjectsToJIT : X ∈ (collectObjectsToJIT M E).2
    ↔ X ∈ M.globalObjects ∧ M.isDeclaration X = false ∧ (M.Requested E X ∨ M.Deduced X) := by
  rw [collectObjectsToJIT, mem_foldl_collectObject]
  simp only [List.not_mem_nil, false_or, HostModule.canExtractBitcode, Bool.not_eq_true']
  constructor
  · rintro ⟨hX, hsection, hdecl⟩
    exact ⟨hX, hdecl, (section_eq_iff hX).1 hsection⟩
  · rintro ⟨hX, hdecl, h⟩
    exact ⟨hX, (section_eq_iff hX).2 h, hdecl⟩

/-! ## The sections afterwards -/

open Classical in
/-- What was put into the section ends up in none. -/
theorem collectObjectsToJIT_section (hX : X ∈ M.globalObjects) :
    (collectObjectsToJIT M E).1 X
      = if M.Requested E X ∨ M.Deduced X then "" else M.getSection X := by
  rw [collectObjectsToJIT, foldl_collectObject_section]
  simp only [hX, true_and, section_eq_iff hX]
  split_ifs with h
  · rfl
  · rw [section_eq, if_neg fun hput => h (hput.2.imp_left .inr)]

/-- No object is left in the section, an object that was not in it is where it was before, and
what is exposed is, once each, the definitions that were annotated, matched or deduced. -/
structure MarksInvisibly (M : HostModule ν) (E : EasyExport) : Prop where
  unmarked : ∀ X ∈ M.globalObjects, (collectObjectsToJIT M E).1 X ≠ JIT_SECTION
  restored : ∀ X ∈ M.globalObjects, M.getSection X ≠ JIT_SECTION →
    (collectObjectsToJIT M E).1 X = M.getSection X
  collected : ∀ X, X ∈ (collectObjectsToJIT M E).2 ↔ X ∈ M.globalObjects
    ∧ M.isDeclaration X = false ∧ (M.Requested E X ∨ M.Deduced X)
  once : (collectObjectsToJIT M E).2.Nodup

/-- The sections are as before exactly when no object that is matched or deduced was in a section
other than the one to expose. -/
theorem collectObjectsToJIT_marksInvisibly_iff (M : HostModule ν) (E : EasyExport) :
    MarksInvisibly M E ↔ ∀ X ∈ M.globalObjects,
      E.isMatch (M.getName X) = true ∨ M.Deduced X →
      M.getSection X = "" ∨ M.getSection X = JIT_SECTION := by
  constructor
  · intro h X hX hput
    by_contra hother
    rw [not_or] at hother
    have hsection := h.restored X hX hother.2
    rw [collectObjectsToJIT_section hX, if_pos (hput.imp_left .inr)] at hsection
    exact hother.1 hsection.symm
  · intro h
    refine ⟨fun X hX => ?_, fun X hX hnot => ?_, fun X => mem_collectObjectsToJIT, ?_⟩
    · rw [collectObjectsToJIT_section hX]
      split_ifs with hput
      · decide
      · exact fun hsection => hput (.inl (.inl hsection))
    · rw [collectObjectsToJIT_section hX]
      split_ifs with hput
      · have hput' : E.isMatch (M.getName X) = true ∨ M.Deduced X :=
          hput.imp_left fun hreq => hreq.resolve_left hnot
        exact ((h X hX hput').resolve_right hnot).symm
      · rfl
    · exact foldl_collectObject_nodup _ _ List.nodup_nil fun Y hY => by cases hY

end

/-! ## The copy -/

section Copy

/-- Whether there is a copy does not change; and nothing does where there are no bytes. -/
theorem foldl_write_copy : ∀ (ws : List MemoryWrite) (m : Cells),
    (m.copy = none → (ws.foldl Cells.write m).copy = none)
      ∧ (m = ⟨[], some []⟩ → ws.foldl Cells.write m = ⟨[], some []⟩)
  | [], _ => ⟨id, id⟩
  | w :: ws, m => by
    obtain ⟨hnone, hnil⟩ := foldl_write_copy ws (m.write w)
    refine ⟨fun h => hnone ?_, fun h => hnil ?_⟩
    · cases w <;> simp [Cells.write, h]
    · subst h
      cases w <;> rfl

/-- An argument is transparent exactly when it points to the object itself, or to a copy of it of
which no byte is ever written. -/
theorem transparent_iff {isConstant : Bool} {host : List (Option UInt8)}
    {copy : Option (List (Option UInt8))} : Transparent isConstant host copy
      ↔ ∀ bs ∈ copy, bs = host ∧ (isConstant = true ∨ host = []) := by
  constructor
  · rintro h bs rfl
    have hsame : bs = host := (h [] fun _ => rfl).1
    refine ⟨hsame, ?_⟩
    by_contra hnot
    rw [not_or, Bool.not_eq_true] at hnot
    obtain ⟨rfl, hhost⟩ := hnot
    obtain ⟨b, bs', rfl⟩ := List.exists_cons_of_ne_nil hhost
    -- another first byte, which is written by the host
    obtain ⟨byte, hbyte⟩ : ∃ byte : UInt8, some byte ≠ b := by
      cases b with
      | none => exact ⟨0, by simp⟩
      | some b => exact ⟨b + 1, by simp⟩
    have := (h [.host 0 byte] (by simp)).1
    rw [hsame] at this
    simp [Cells.write, Cells.read, Ne.symm hbyte] at this
  · intro h
    cases copy with
    | none =>
      intro ws _
      have hws := (foldl_write_copy ws ⟨host, none⟩).1 rfl
      exact ⟨by rw [Cells.read, hws]; rfl, fun _ _ _ => by rw [Cells.write, hws]⟩
    | some bs =>
      obtain ⟨rfl, hconst | rfl⟩ := h bs rfl
      · intro ws hws
        rw [hws hconst]
        exact ⟨rfl, fun h => by rw [hconst] at h; cases h⟩
      · intro ws _
        rw [(foldl_write_copy ws _).2 rfl]
        exact ⟨rfl, fun _ _ _ => rfl⟩

variable {β δ : Type}

theorem getInitializer_mapSym (f : Sym String → Sym String) :
    ∀ d : Def String (Option δ) Op GlobalInfo,
      getInitializer (d.mapSym f) = (getInitializer d).map (Constant.map (Option.map f))
  | ⟨.variable _, [⟨.initializer c, refs⟩]⟩ => by
    simp [getInitializer, Def.mapSym, Inst.mapSym, Constant.map_map, Function.comp_def]
  | ⟨.variable _, [⟨.call _, _⟩]⟩ | ⟨.variable _, [⟨.inlineAsm _, _⟩]⟩
  | ⟨.variable _, [⟨.other _, _⟩]⟩ | ⟨.variable _, []⟩ | ⟨.function _, _⟩ => rfl
  | ⟨.variable _, _ :: _ :: _⟩ => by simp [getInitializer, Def.mapSym]

variable [BitcodeFormat β δ] {T : BitcodeTracker β} {S S' : LinkState δ} {p : Ptr} {ptrTy : Ty}
  {c : LConstant} {init : Constant (Option (Sym String))}

/-- The copy has the initialiser of the variable, with its symbols as they are renamed by linking.
-/
theorem copyImage_linked (DL : DataLayout) {info : FunctionRegistration β} {LM : LModule δ}
    (hinfo : T.functions.lookup p = some info)
    (hLM : BitcodeFormat.parse info.bitcode = some LM)
    (hinit : (LM.definition? (.ext info.name)).bind getInitializer = some init)
    (h : linkPointerIfPossible T S p ptrTy = .ok (S', some c)) (srcs : List (LSource δ)) :
    ∃ f : Sym String → Sym String, ∀ J : Engine, copyImage DL J (S'.mod.linkAll srcs) c
      = init.placedImage DL (J.address (S'.mod.linkAll srcs) ∘ Option.map f) := by
  obtain ⟨d, hd, hdinit⟩ := Option.bind_eq_some_iff.1 hinit
  have hdefines : LM.defines info.name = true := by
    rw [Module.defines, Module.shape?_eq_map, hd]
    rfl
  rw [linkPointerIfPossible_of_lookup hinfo hLM hdefines, Except.map_eq_ok] at h
  obtain ⟨c', hc, heq⟩ := h
  cases heq
  set src : LSource δ := ⟨LM, info.name⟩
  have hsym : c.symbols.head? = some (.loc (S.mod.next + LM.next)) := by
    unfold linkedConstant at hc
    split at hc
    · cases hc
      split <;> rfl
    · cases hc
      rfl
    · cases hc
  have hbrought : S.mod.brought src (.ext info.name) = .loc (S.mod.next + LM.next) := by
    simp [Module.brought, Sym.shift, Sym.privatise, src]
  have hdef := Module.definition?_brought (M := S.mod) (S := src) (s := .ext info.name) trivial hd
  rw [hbrought] at hdef
  have hfinal := Module.definition?_linkAll_loc srcs
    (by rw [Module.next_linkSource]; exact Nat.lt_succ_self _) hdef
  refine ⟨(S.mod.linkSource src).movedAll srcs ∘ S.mod.brought src, fun J => ?_⟩
  have himage : ((c.symbols.head?.bind ((S.linkSource src).mod.linkAll srcs).definition?).bind
      getInitializer) = some (init.map
        (Option.map ((S.mod.linkSource src).movedAll srcs ∘ S.mod.brought src))) := by
    rw [hsym]
    simp only [Option.bind_some]
    rw [show (S.linkSource src).mod = S.mod.linkSource src from rfl, hfinal]
    simp only [Option.bind_some, getInitializer_mapSym, hdinit, Option.map_some, Constant.map_map,
      Option.map_comp_map]
  rw [copyImage, himage, Option.map_some, Option.getD_some, Constant.placedImage_map]

end Copy

section Expose

variable {ν : Type} [DecidableEq ν] {M : HostModule ν} {E : EasyExport} {init : ν → Constant ν}

attribute [local instance] BitcodeFormat.self

/-- A module with just the variable. -/
def exposedModule (M : HostModule ν) (init : ν → Constant ν) (X : ν) : LModule Unit :=
  Module.define .empty (M.getName X) ⟨.variable (init X).type,
    [⟨.initializer ((init X).map (init X).symbols.idxOf),
      (init X).symbols.map fun V => ⟨.ext (M.getName V), none⟩⟩]⟩

def exposedInfo (M : HostModule ν) (init : ν → Constant ν) (X : ν) :
    FunctionRegistration (LModule Unit) :=
  ⟨M.getName X, [], exposedModule M init X⟩

/-- All objects one behind the other. -/
def exposedAddr (M : HostModule ν) (X : ν) : Ptr := M.values.idxOf X + 1

/-- The tracker after what is exposed was registered. -/
def exposedTracker (M : HostModule ν) (E : EasyExport) (init : ν → Constant ν) :
    BitcodeTracker (LModule Unit) :=
  (collectObjectsToJIT M E).2.foldl
    (fun T X => T.registerFunction (exposedAddr M X) (exposedInfo M init X)) .empty

theorem definition?_exposedModule (X : ν) :
    ((exposedModule M init X).definition? (.ext (M.getName X))).bind getInitializer
      = some ((init X).map fun V => some (.ext (M.getName V))) := by
  have hdef : (exposedModule M init X).definition? (.ext (M.getName X))
      = some ⟨.variable (init X).type, [⟨.initializer ((init X).map (init X).symbols.idxOf),
        (init X).symbols.map fun V => ⟨.ext (M.getName V), none⟩⟩]⟩ := by
    simp [exposedModule, Module.define, Module.definition?]
  rw [hdef, Option.bind_some, getInitializer, Constant.map_map]
  refine congrArg some (Constant.map_congr fun V hV => ?_)
  simp [List.getElem?_idxOf hV]

theorem exposedAddr_inj {X Y : ν} : exposedAddr M X = exposedAddr M Y ↔ X = Y := by
  rw [exposedAddr, exposedAddr, Nat.add_right_cancel_iff]
  exact List.idxOf_inj (M.mem_values X)

/-- The tracker has what is exposed. -/
theorem lookup_exposedTracker (M : HostModule ν) (E : EasyExport) (init : ν → Constant ν) (X : ν) :
    (exposedTracker M E init).functions.lookup (exposedAddr M X)
      = if X ∈ (collectObjectsToJIT M E).2 then some (exposedInfo M init X) else none := by
  rw [exposedTracker, BitcodeTracker.lookup_functions_foldl]
  simp only [exposedAddr_inj]
  by_cases hX : X ∈ (collectObjectsToJIT M E).2
  · have hfind : (collectObjectsToJIT M E).2.find? (fun Y => decide (Y = X)) = some X := by
      cases hfind : (collectObjectsToJIT M E).2.find? fun Y => decide (Y = X) with
      | none => exact absurd (List.find?_eq_none.1 hfind X hX) (by simp)
      | some Y => simpa using List.find?_some hfind
    rw [hfind, if_pos hX]
    rfl
  · have hfind : (collectObjectsToJIT M E).2.find? (fun Y => decide (Y = X)) = none := by
      rw [List.find?_eq_none]
      rintro Y hY hYX
      exact hX (of_decide_eq_true hYX ▸ hY)
    rw [hfind, if_neg hX]
    rfl

theorem tracksObjects_exposedTracker :
    TracksObjects (δ := Unit) M E init (exposedAddr M) (exposedTracker M E init) where
  registered X _ := by
    rw [BitcodeTracker.hasGlobalMapping, lookup_exposedTracker M E init]
    split_ifs with h <;> simp [h]
  name X _ name globals h := by
    rw [BitcodeTracker.getNameAndGlobalMapping, lookup_exposedTracker M E init] at h
    split_ifs at h
    cases h
    rfl
  initializer X _ _ LM h := by
    rw [BitcodeTracker.getModule, lookup_exposedTracker M E init] at h
    split_ifs at h
    cases h
    exact definition?_exposedModule X

/-- An engine that puts all at one address has it for the names it was given, too. -/
theorem Engine.address_const {δ : Type} (N : LModule δ) {names : List String} {q : Ptr}
    {process : String → Ptr} {s : Sym String} (hs : ∀ n, s = .ext n → n ∈ names) :
    (⟨fun _ => q, names.map (·, q), process⟩ : Engine).address N (some s) = q := by
  cases s with
  | loc k => rfl
  | ext n =>
    have hlookup : ∀ ns : List String, n ∈ ns → (ns.map (·, q)).lookup n = some q := by
      intro ns hn
      induction ns with
      | nil => cases hn
      | cons m ns ih =>
        rw [List.map_cons, List.lookup_cons]
        by_cases hm : n = m
        · rw [beq_iff_eq.2 hm]
        · rw [beq_eq_false_iff_ne.2 hm]
          exact ih (List.mem_of_ne_of_mem hm hn)
    rw [Engine.address, hlookup names (hs n rfl)]
    split <;> rfl

/-- A variable that is exposed is linked in. -/
theorem exists_linked_exposedTracker (init : ν → Constant ν) {X : ν}
    (hX : X ∈ (collectObjectsToJIT M E).2) :
    ∃ S' c, linkPointerIfPossible (exposedTracker M E init) ⟨.empty, []⟩ (exposedAddr M X)
      (.ptr (init X).type) = .ok (S', some c) := by
  have hlookup := lookup_exposedTracker M E init X
  have hshape : (exposedModule M init X).shape? (.ext (M.getName X))
      = some ⟨.variable (init X).type, [(.initializer ((init X).map (init X).symbols.idxOf),
        (init X).symbols.map fun _ => none)]⟩ := by
    simp [exposedModule, Module.define, Module.shape?, Module.shapeIn, Def.shape,
      Function.comp_def]
  have hdefines : (exposedModule M init X).defines (M.getName X) = true := by
    rw [Module.defines, hshape]
    rfl
  rw [if_pos hX] at hlookup
  have hparse : BitcodeFormat.parse (exposedInfo M init X).bitcode
      = some (exposedModule M init X) := rfl
  rw [linkPointerIfPossible_of_lookup hlookup hparse hdefines]
  have hshape' : (exposedModule M init X).shape? (.ext (exposedInfo M init X).name) = _ := hshape
  simp only [linkedConstant, hshape']
  exact ⟨_, _, rfl⟩

/-- Where arguments are transparent, no variable that is exposed has an address in it. -/
theorem OnlyImmutable.not_relocated {DL : DataLayout} {process : (ν → Ptr) → String → Ptr}
    (h : OnlyImmutable M E init DL process) {X : ν} (hX : X ∈ M.globalObjects)
    (hvar : (M.kind X).isGlobalVariable = true) (hmem : X ∈ (collectObjectsToJIT M E).2) :
    ¬ (init X).Relocated DL := by
  obtain ⟨S', c, hlink⟩ := exists_linked_exposedTracker init hmem
  have hlookup := lookup_exposedTracker M E init X
  rw [if_pos hmem] at hlookup
  obtain ⟨f, hf⟩ := copyImage_linked DL hlookup rfl (definition?_exposedModule X) hlink []
  -- the function that is specialised may have a mapping of all the names
  let names := M.values.filterMap fun V => (f (.ext (M.getName V))).name?
  have hcopy (q : Ptr) : (init X).placedImage DL (fun _ => q)
      = (init X).placedImage DL (exposedAddr M) := by
    have hhost := (transparent_iff.1 (h.2 _ _ tracksObjects_exposedTracker X hX hvar _ _ _ _
      hlink [] ⟨fun _ => q, names.map (·, q), process (exposedAddr M)⟩ rfl) _ rfl).1
    rw [hf, Constant.placedImage_map] at hhost
    rw [← hhost]
    congr 1
    funext V
    refine (Engine.address_const _ fun n hn => ?_).symm
    exact List.mem_filterMap.2 ⟨V, M.mem_values V, by rw [hn]; rfl⟩
  exact Constant.not_relocated_of_const fun q q' => (hcopy q).trans (hcopy q').symm

end Expose

section Samples

/-- A process that finds all objects of the module by their names. -/
def HostModule.exported {ν : Type} (M : HostModule ν) (addr : ν → Ptr) (name : String) : Ptr :=
  ((M.values.find? fun V => M.getName V = name).map addr).getD 0

/-- `void foo()`, `static int counter = 0` and `jit`, of the compiler interface, which is called
with `foo`. -/
def counterModule : HostModule (Fin 5) where
  values := List.finRange 5
  mem_values := List.mem_finRange
  kind
    | 0 => .function false
    | 1 => .globalVariable false (some 2)
    | 2 => .constant []
    | 3 => .function false
    | 4 => .call 3 [0]
  users
    | 0 | 3 => [4]
    | 2 => [1]
    | _ => []
  mem_users := by decide
  constant_operands := by decide
  getName
    | 0 => "foo"
    | 1 => "counter"
    | 3 => "jit"
    | _ => ""
  getSection
    | 3 => CI_SECTION
    | _ => ""
  stripPointerCasts := id

/-- `int (*const table[2])(int, int) = {add, sub}`, annotated with `EASY_JIT_EXPOSE`, and a call of
`add`. -/
def tableModule : HostModule (Fin 5) where
  values := List.finRange 5
  mem_values := List.mem_finRange
  kind
    | 0 => .function false
    | 1 => .function false
    | 2 => .globalVariable true (some 3)
    | 3 => .constantArray [0, 1]
    | 4 => .call 0 []
  users
    | 0 => [3, 4]
    | 1 => [3]
    | 3 => [2]
    | _ => []
  mem_users := by decide
  constant_operands := by decide
  getName
    | 0 => "add"
    | 1 => "sub"
    | 2 => "table"
    | _ => ""
  getSection
    | 2 => JIT_SECTION
    | _ => ""
  stripPointerCasts := id

/-- The functions are somewhere else in the copy of the table. -/
theorem table_not_onlyImmutable :
    let E : EasyExport := ⟨"", fun _ _ => false⟩
    let ty : Ty := .ptr (.func (.int 32) [.int 32, .int 32])
    let init : Fin 5 → Constant (Fin 5) :=
      fun _ => .array (.array 2 ty) [.global 0 ty, .global 1 ty]
    2 ∈ (collectObjectsToJIT tableModule E).2 ∧ tableModule.isConstant 2 = true
      ∧ ¬ OnlyImmutable tableModule E init DataLayout.x86_64 tableModule.exported := by
  intro E ty init
  have hmem : 2 ∈ (collectObjectsToJIT tableModule E).2 :=
    mem_collectObjectsToJIT.2 ⟨by decide, rfl, .inl (.inl rfl)⟩
  refine ⟨hmem, rfl, fun h => h.not_relocated (by decide) rfl hmem ?_⟩
  exact ⟨fun _ => 0, fun _ => 1, by decide⟩

/-- `foo` is placed in a section with `__attribute__((section("hot")))`. -/
def hotModule : HostModule (Fin 5) :=
  { counterModule with
    getSection := fun
      | 0 => "hot"
      | 3 => CI_SECTION
      | _ => "" }

/-- The function that is passed to `jit` is no longer in the section it was placed in. -/
theorem hot_not_marksInvisibly :
    let E : EasyExport := ⟨"", fun _ _ => false⟩
    hotModule.getSection 0 = "hot" ∧ (collectObjectsToJIT hotModule E).1 0 = ""
      ∧ ¬ MarksInvisibly hotModule E := by
  intro E
  have hsection : (collectObjectsToJIT hotModule E).1 0 = "" := by decide
  refine ⟨rfl, hsection, fun h => ?_⟩
  have := h.restored 0 (by decide) (by decide)
  rw [hsection] at this
  exact absurd this (by decide)

end Samples

end EasyJit
