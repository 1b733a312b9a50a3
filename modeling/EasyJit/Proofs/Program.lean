import EasyJit.Program
import EasyJit.Proofs.EmbedMeaning
import EasyJit.Proofs.RegisterBitcode
import EasyJit.Proofs.Startup

/-!
# What a started program has registered

What a unit registers for an object is a module that defines it and means what the program does
(`registration_sound`). So the tracker of a started program is that of a sound process
(`startup_sound`), and it finds a module exactly for what is exposed (`startup_finds_iff`).
-/

namespace EasyJit.Embed

open LLVM Linker Terminated

/-! ## A variable that is exposed -/

section Variable

variable {ν δ : Type} [DecidableEq ν] {M M' : ModuleGraph ν} {L : Reading ν δ} {passes : Passes ν}
  {Entry init : ν} {data : GlobalData}

theorem isDiscardable_madeVisible {linkage : Linkage}
    (h : linkage ≠ .availableExternallyLinkage) :
    linkage.madeVisible.isDiscardableIfUnused = false ∧ linkage.madeVisible.isLocal = false := by
  cases linkage
  case availableExternallyLinkage => exact absurd rfl h
  all_goals exact ⟨rfl, rfl⟩

/-- The variable is left with its initialiser, as a symbol that other modules can see. -/
theorem pruned_variable (hkeep : passes.KeepVariables)
    (hEntry : M.kind Entry = .globalVariable data (some init))
    (hlinkage : data.linkage ≠ .availableExternallyLinkage)
    (h : cleanModule M passes Entry = .ok M') : ∃ data',
      M'.kind Entry = .globalVariable data' (some init) ∧ data'.linkage.isLocal = false := by
  have hM' : M' = passes.run (referenced M Entry) M := by
    simp only [cleanModule, pruneModule, exposeEntry, hEntry, Node.isFunction, Bool.false_eq_true,
      if_false, Except.ok.injEq] at h
    exact h.symm
  obtain ⟨data', hkind, hvisible⟩ := hkeep.gvExtraction (referenced M Entry) M Entry data init
    (List.mem_append_right _ (List.mem_singleton_self _)) hEntry hlinkage
  obtain ⟨hdiscard, hlocal⟩ := isDiscardable_madeVisible hlinkage
  rw [← hvisible] at hdiscard hlocal
  have hstep (pass : ModuleGraph ν → ModuleGraph ν)
      (hpass : pass ∈ [passes.globalDCE, passes.stripDeadDebugInfo, passes.stripDeadPrototypes])
      {N : ModuleGraph ν} (hN : N.kind Entry = .globalVariable data' (some init)) :
      (pass N).kind Entry = .globalVariable data' (some init) :=
    (hkeep.keeps pass hpass N Entry data' init hN hdiscard).trans hN
  have h₁ := hstep passes.globalDCE (by simp) hkind
  have h₂ := hstep passes.stripDeadDebugInfo (by simp) h₁
  exact ⟨data', hM' ▸ hstep passes.stripDeadPrototypes (by simp) h₂, hlocal⟩

theorem defines_variable (hpasses : passes.Documented) (hrefs : passes.KeepReferences)
    (hkeep : passes.KeepVariables) (hnames : M.NamesUnique)
    (hEntry : M.kind Entry = .globalVariable data (some init))
    (hlinkage : data.linkage ≠ .availableExternallyLinkage)
    (h : cleanModule M passes Entry = .ok M') : (M'.toModule L).defines data.name = true := by
  have hcut := cutDown_of_cleanModule hpasses hrefs h
  obtain ⟨data', hM', hlocal⟩ := pruned_variable hkeep hEntry hlinkage h
  have hdata' := congrArg Node.data? hM'
  obtain ⟨data₀, hdata₀, hname⟩ := hcut.name hdata'
  rw [hEntry] at hdata₀
  cases hdata₀
  rw [hname]
  refine defines_toModule (hcut.namesUnique hnames) hdata' hlocal ?_
  rw [lowerDef, hM']
  rfl

end Variable

/-! ## A unit -/

namespace TranslationUnit

variable {δ V : Type} {I : Interpretation Op GlobalInfo V} {env own : String → ℕ → V}
  {E : EasyExport} {U : TranslationUnit δ} {X : U.Value}

/-- Once the local variables have names, every global value has one of its own. -/
theorem namesUnique (hU : U.WellFormed) (hS : U.Sound I env own E) : U.named.NamesUnique := by
  have hne {Y : U.Value} {data : GlobalData} (hY : (U.named.kind Y).data? = some data) :
      data.name ≠ "" := by
    obtain ⟨data₀, hdata₀, -, hsame⟩ := (renamed_named U).data? hY
    by_cases hlocal : (U.graph.kind Y).isLocalVariable = true
    · rw [← getName_of_data? hY]
      refine getName_nameGlobals (by decide) (fun GV hGV => ?_)
        (List.mem_filter.2 ⟨U.graph.mem_nodes Y, hlocal⟩)
      have hGV := (List.mem_filter.1 hGV).2
      cases hkind : U.graph.kind GV <;> rw [hkind] at hGV <;> first | rfl | cases hGV
    · have hname := hS.hasName Y data₀ hdata₀ (Bool.not_eq_true _ ▸ hlocal)
      rw [hsame hname]
      exact hname
  exact fun Y Z data data' hY hZ heq => hU.wellNamed.unique Y Z data data' hY hZ heq (hne hY)

theorem mem_objectsToJIT : X ∈ U.objectsToJIT E ↔ X ∈ U.host.globalObjects
    ∧ U.host.isDeclaration X = false ∧ (U.host.Requested E X ∨ U.host.Deduced X) :=
  mem_collectObjectsToJIT

/-- An object that is exposed is a function with a body, or a variable with an initialiser. -/
theorem definition_of_mem_objectsToJIT (hX : X ∈ U.objectsToJIT E) :
    (∃ data attrs body operands, U.graph.kind X = .function data attrs (some body) operands)
      ∨ ∃ data init, U.graph.kind X = .globalVariable data (some init) := by
  obtain ⟨hglobal, hdef, -⟩ := mem_objectsToJIT.1 hX
  rw [U.same.declaration X] at hdef
  simp only [HostModule.globalObjects, List.mem_append, List.mem_filter] at hglobal
  rcases hglobal with ⟨-, hfun⟩ | ⟨-, hvar⟩
  · rw [U.same.function X] at hfun
    cases hkind : U.graph.kind X <;> rw [hkind] at hfun hdef
    case function data attrs body operands =>
      cases body with
      | none => cases hdef
      | some body => exact .inl ⟨data, attrs, body, operands, rfl⟩
    all_goals cases hfun
  · obtain ⟨data, initializer, hkind⟩ := (U.same.globalVariable X).1 hvar
    rw [hkind] at hdef
    cases initializer with
    | none => cases hdef
    | some init => exact .inr ⟨data, init, hkind⟩

variable [BitcodeFormat (List UInt8) δ] {r : Ptr × FunctionRegistration (List UInt8)}

/-- What is registered for an object is under its name, and a module that defines it and means by
what it shows what the program does. -/
theorem registration_sound (hU : U.WellFormed) (hS : U.Sound I env own E)
    (hX : X ∈ U.objectsToJIT E) (h : U.registration X = .ok r) :
    r.1 = U.addr (.value X) ∧ r.2.name = U.named.getName X
      ∧ ∃ LM : LModule δ, r.2.bitcode = BitcodeFormat.write LM ∧ LM.Sound I env
        ∧ LM.defines r.2.name = true ∧ LM.metadata = none := by
  obtain ⟨Embed, hclean, h⟩ := Except.bind_eq_ok.1 h
  cases h
  have hnames := namesUnique hU hS
  have hown := (soundNames_of_cutDown (cutDown_of_cleanModule hS.documented hS.keepReferences
    hclean) hnames hS.ignoresAttributes hS.meansProgram).sound
  refine ⟨rfl, rfl, _, rfl, hown.congr_env fun m hm =>
    hS.shown X hX Embed hclean m (shows_of_mentions hm), ?_, rfl⟩
  have hrenamed := (renamed_named U).kind X
  rcases definition_of_mem_objectsToJIT hX with ⟨data, attrs, body, operands, hkind⟩
    | ⟨data, init, hkind⟩
  · obtain ⟨data', hkind'⟩ : ∃ data', U.named.kind X
        = .function data' attrs (some body) operands := by
      rcases hrenamed with hsame | ⟨-, name, hname⟩
      · exact ⟨data, hsame.trans hkind⟩
      · exact ⟨{ data with name := name }, by rw [hname, hkind]; rfl⟩
    rw [getName_of_data? (congrArg Node.data? hkind')]
    exact defines_entry hS.documented hS.keepReferences hnames hclean hkind'
  · obtain ⟨data', hkind', hlinkage⟩ : ∃ data', U.named.kind X = .globalVariable data' (some init)
        ∧ data'.linkage = data.linkage := by
      rcases hrenamed with hsame | ⟨-, name, hname⟩
      · exact ⟨data, hsame.trans hkind, rfl⟩
      · exact ⟨{ data with name := name }, by rw [hname, hkind]; rfl, rfl⟩
    rw [getName_of_data? (congrArg Node.data? hkind')]
    exact defines_variable hS.documented hS.keepReferences hS.keepVariables hnames hkind'
      (hlinkage ▸ hS.exposed X hX data _ hkind) hclean

end TranslationUnit

/-! ## The program -/

section Program

variable {δ V : Type} [BitcodeFormat (List UInt8) δ] {I : Interpretation Op GlobalInfo V}
  {env : String → ℕ → V} {E : EasyExport} {units : List (TranslationUnit δ)} {DL : DataLayout}
  {m m' : ByteMemory} {cs : List Raw.Call} {rs : List (Ptr × FunctionRegistration (List UInt8))}

theorem mem_registrations {U : TranslationUnit δ} (h : U.registrations E = .ok rs)
    {r : Ptr × FunctionRegistration (List UInt8)} :
    r ∈ rs ↔ ∃ X ∈ U.objectsToJIT E, U.registration X = .ok r := by
  have hall := Except.mapM_eq_ok.1 h
  constructor
  · intro hr
    obtain ⟨i, hi, rfl⟩ := List.mem_iff_getElem.1 hr
    exact ⟨_, List.getElem_mem (hall.length_eq ▸ hi), hall.get (hall.length_eq ▸ hi) hi⟩
  · rintro ⟨X, hX, hr⟩
    obtain ⟨i, hi, rfl⟩ := List.mem_iff_getElem.1 hX
    have hget := hall.get hi (hall.length_eq ▸ hi)
    rw [List.get_eq_getElem, hr] at hget
    cases hget
    exact List.getElem_mem _

theorem mem_programRegistrations : ∀ {units : List (TranslationUnit δ)}
    {rs : List (Ptr × FunctionRegistration (List UInt8))}, programRegistrations E units = .ok rs →
    ∀ {r}, r ∈ rs ↔ ∃ U ∈ units, ∃ X ∈ U.objectsToJIT E, U.registration X = .ok r
  | [], rs, h, r => by
    cases h
    simp
  | U :: units, rs, h, r => by
    obtain ⟨rs₁, hrs₁, h⟩ := Except.bind_eq_ok.1 h
    obtain ⟨rs₂, hrs₂, h⟩ := Except.bind_eq_ok.1 h
    cases h
    rw [List.mem_append, mem_registrations hrs₁, mem_programRegistrations hrs₂]
    simp

theorem exists_registration {U : TranslationUnit δ} (h : programRegistrations E units = .ok rs)
    (hU : U ∈ units) {X : U.Value} (hX : X ∈ U.objectsToJIT E) :
    ∃ r ∈ rs, U.registration X = .ok r := by
  induction units generalizing rs with
  | nil => cases hU
  | cons U' units ih =>
    obtain ⟨rs₁, hrs₁, h⟩ := Except.bind_eq_ok.1 h
    obtain ⟨rs₂, hrs₂, h⟩ := Except.bind_eq_ok.1 h
    cases h
    rcases List.mem_cons.1 hU with rfl | hU
    · obtain ⟨r, hr⟩ := Except.exists_of_mapM_eq_ok hrs₁ hX
      exact ⟨r, List.mem_append_left _ ((mem_registrations hrs₁).2 ⟨X, hX, hr⟩), hr⟩
    · obtain ⟨r, hr, hreg⟩ := ih hrs₂ hU
      exact ⟨r, List.mem_append_right _ hr, hreg⟩

omit [BitcodeFormat (List UInt8) δ] in
theorem lookup_registerEach {β : Type} (rs : List (Ptr × FunctionRegistration β)) (p : Ptr) :
    (BitcodeTracker.registerEach rs).functions.lookup p = (rs.find? (·.1 = p)).map (·.2) :=
  BitcodeTracker.lookup_functions_foldl _ _ rs p

/-- An object that is a definition and was annotated, matched or deduced has the address. -/
def Exposes (E : EasyExport) (U : TranslationUnit δ) (X : U.Value) (p : Ptr) : Prop :=
  X ∈ U.host.globalObjects ∧ U.host.isDeclaration X = false
    ∧ (U.host.Requested E X ∨ U.host.Deduced X) ∧ U.addr (.value X) = p

theorem registration_fptr {U : TranslationUnit δ} {X : U.Value}
    {r : Ptr × FunctionRegistration (List UInt8)} (h : U.registration X = .ok r) :
    r.1 = U.addr (.value X) ∧ ∃ Embed, cleanModule U.named U.passes X = .ok Embed
      ∧ r.2.bitcode = BitcodeFormat.write (Embed.toModule U.reading) := by
  obtain ⟨Embed, hclean, h⟩ := Except.bind_eq_ok.1 h
  cases h
  exact ⟨rfl, Embed, hclean, rfl⟩

omit [BitcodeFormat (List UInt8) δ] in
theorem exposes_iff {U : TranslationUnit δ} {X : U.Value} {p : Ptr} :
    Exposes E U X p ↔ X ∈ U.objectsToJIT E ∧ U.addr (.value X) = p := by
  rw [Exposes, TranslationUnit.mem_objectsToJIT, and_assoc, and_assoc]

/-- What the units expose at an address is what is registered for it. -/
theorem exists_mem_iff_exposes (hrs : programRegistrations E units = .ok rs) {p : Ptr} :
    (∃ r ∈ rs, r.1 = p) ↔ ∃ U ∈ units, ∃ X, Exposes E U X p := by
  constructor
  · rintro ⟨r, hr, rfl⟩
    obtain ⟨U, hU, X, hX, hreg⟩ := (mem_programRegistrations hrs).1 hr
    exact ⟨U, hU, X, exposes_iff.2 ⟨hX, (registration_fptr hreg).1.symm⟩⟩
  · rintro ⟨U, hU, X, hX⟩
    obtain ⟨hmem, rfl⟩ := exposes_iff.1 hX
    obtain ⟨r, hr, hreg⟩ := exists_registration hrs hU hmem
    exact ⟨r, hr, (registration_fptr hreg).1⟩

/-- For an address that an object is exposed at, the tracker finds the embedded module of one; and
for another address it throws, when it is asked for the module and when it is asked for the name. -/
theorem startup_finds_iff (hDL : DL.Positive) (hptr : DL.pointerSize = 8)
    (hm : Loaded E DL units m) (hm' : Loaded E DL units m')
    (h : programCalls E units = .ok cs) : ∃ T, Raw.startup m cs = .ok T ∧ ∀ p,
      (∃ U ∈ units, ∃ X Embed, Exposes E U X p ∧ cleanModule U.named U.passes X = .ok Embed
          ∧ T.getModule m' p = .ok (Embed.toModule U.reading))
      ∨ (¬ ∃ U ∈ units, ∃ X, Exposes E U X p) ∧ T.hasGlobalMapping p = false
        ∧ T.getNameAndGlobalMapping p = .error .BitcodeNotRegistered
        ∧ T.getModule (δ := δ) m' p = .error .BitcodeNotRegistered := by
  obtain ⟨rs, hrs, hrep⟩ := programCalls_represent hDL hptr hm hm' h
  obtain ⟨T, hT, hrep⟩ := startup_represents hrep
  have href := hrep.refines (δ := δ)
  refine ⟨T, hT, fun p => ?_⟩
  have hlookup := lookup_registerEach rs p
  cases hfind : rs.find? (·.1 = p) with
  | some r =>
    rw [hfind] at hlookup
    obtain ⟨U, hU, X, hX, hr⟩ := (mem_programRegistrations hrs).1 (List.mem_of_find?_eq_some hfind)
    obtain ⟨haddr, Embed, hclean, hbitcode⟩ := registration_fptr hr
    have hp : r.1 = p := by simpa using List.find?_some hfind
    refine .inl ⟨U, hU, X, Embed, exposes_iff.2 ⟨hX, haddr.symm.trans hp⟩, hclean, ?_⟩
    rw [href.getModule, EasyJit.BitcodeTracker.getModule, hlookup, Option.map_some]
    dsimp only
    rw [hbitcode, BitcodeFormat.parse_write]
  | none =>
    rw [hfind] at hlookup
    refine .inr ⟨fun hexposed => ?_, ?_, href.unregistered p _ ?_, ?_⟩
    · obtain ⟨r, hr, hp⟩ := (exists_mem_iff_exposes hrs).2 hexposed
      exact List.find?_eq_none.1 hfind r hr (decide_eq_true hp)
    · rw [href.hasGlobalMapping, EasyJit.BitcodeTracker.hasGlobalMapping, hlookup]
      rfl
    · rw [EasyJit.BitcodeTracker.getNameAndGlobalMapping, hlookup]
      rfl
    · rw [href.getModule, EasyJit.BitcodeTracker.getModule, hlookup]
      rfl

/-- `main` was annotated, and is found at its address; there is nothing at another. -/
theorem startup_finds_static : ∃ (_ : BitcodeFormat (List UInt8) Unit) (m : ByteMemory)
    (cs : List Raw.Call) (T : Raw.BitcodeTracker),
    programCalls annotatedOnly [unitStatic] = .ok cs ∧ Raw.startup m cs = .ok T
      ∧ T.getModule m 0x1000 = .ok embeddedMain
      ∧ T.getModule (δ := Unit) m 0x3000 = .error .BitcodeNotRegistered := by
  obtain ⟨F, hF⟩ := exists_bitcodeFormat_single embeddedMain [0x42, 0x43]
  obtain ⟨cs, hcs⟩ := programCalls_static
  obtain ⟨T, hT, h⟩ := startup_finds_iff DataLayout.x86_64_positive rfl (loaded_static hF)
    (loaded_static hF) hcs
  have hexposed {X : StaticValue} {p : Ptr} (hX : Exposes annotatedOnly unitStatic X p) :
      X = .main ∧ p = 0x1000 := by
    obtain ⟨hmem, haddr⟩ := exposes_iff.1 hX
    rw [objectsToJIT_static] at hmem
    obtain rfl : X = .main := List.mem_singleton.1 hmem
    exact ⟨rfl, haddr.symm⟩
  refine ⟨F, _, cs, T, hcs, hT, ?_, ?_⟩
  · rcases h 0x1000 with ⟨U, hU, X, Embed, hX, hclean, hget⟩ | ⟨hnot, -⟩
    · obtain rfl := List.mem_singleton.1 hU
      obtain ⟨rfl, -⟩ := hexposed hX
      have hEmbed : cleanModule readsStatic extractOnly .main = .ok Embed := hclean
      rw [hget, embeddedMain, hEmbed]
      rfl
    · have hmem : StaticValue.main ∈ unitStatic.objectsToJIT annotatedOnly := by
        rw [objectsToJIT_static]
        exact List.mem_singleton_self _
      exact absurd ⟨_, List.mem_singleton_self _, _, exposes_iff.2 ⟨hmem, rfl⟩⟩ hnot
  · rcases h 0x3000 with ⟨U, hU, X, Embed, hX, -⟩ | ⟨-, -, -, hget⟩
    · obtain rfl := List.mem_singleton.1 hU
      exact absurd (hexposed hX).2 (by decide)
    · exact hget

/-- What is registered is what the runtime takes for granted of a registration. -/
theorem exists_registration_of (hm : Loaded E DL units m') (hS : SoundUnits I env E units)
    (hrs : programRegistrations E units = .ok rs)
    (hplaced : ∀ U ∈ units, ∀ X ∈ U.objectsToJIT E, U.addr (.value X) ≠ 0)
    {r : Ptr × FunctionRegistration (List UInt8)} (hr : r ∈ rs) :
    ∃ reg : Registration (List UInt8) δ, (reg.fptr, reg.info) = r ∧ ∀ LM : LModule δ,
      BitcodeFormat.parse reg.info.bitcode = some LM → LM.Sound I env := by
  obtain ⟨U, hU, X, hX, hreg⟩ := (mem_programRegistrations hrs).1 hr
  obtain ⟨own, hown⟩ := hS.sound U hU
  obtain ⟨haddr, hname, LM, hbitcode, hsound, hdefines, hmeta⟩ :=
    U.registration_sound (hm.wellFormed U hU) hown hX hreg
  have hparse {LM' : LModule δ} (h : BitcodeFormat.parse r.2.bitcode = some LM') : LM' = LM := by
    rw [hbitcode, BitcodeFormat.parse_write] at h
    cases h
    rfl
  refine ⟨⟨r.1, r.2, haddr ▸ hplaced U hU X hX, ?_, ?_, ?_⟩, rfl, fun LM' h => hparse h ▸ hsound⟩
  · rw [hname]
    exact TranslationUnit.isCString_getName (hm.wellFormed U hU) X
  · exact fun LM' h => hparse h ▸ hdefines
  · exact fun LM' h => hparse h ▸ hmeta

theorem exists_calls (h : programCalls E units = .ok cs) {U : TranslationUnit δ}
    (hU : U ∈ units) : ∃ cs, U.calls E = .ok cs := by
  induction units generalizing cs with
  | nil => cases hU
  | cons U' units ih =>
    obtain ⟨cs₁, hcs₁, h⟩ := Except.bind_eq_ok.1 h
    obtain ⟨cs₂, hcs₂, -⟩ := Except.bind_eq_ok.1 h
    rcases List.mem_cons.1 hU with rfl | hU
    · exact ⟨cs₁, hcs₁⟩
    · exact ih hcs₂ hU

/-- What is exposed is defined, and has an address. -/
theorem addr_ne_zero (hm : Loaded E DL units m) (h : programCalls E units = .ok cs)
    {U : TranslationUnit δ} (hU : U ∈ units) {X : U.Value} (hX : X ∈ U.objectsToJIT E) :
    U.addr (.value X) ≠ 0 := by
  obtain ⟨cs', hcs'⟩ := exists_calls h hU
  obtain ⟨R, hR, -⟩ := Except.bind_eq_ok.1 hcs'
  cases R with
  | none =>
    rw [TranslationUnit.objects_of_runOnModule_none hR] at hX
    cases hX
  | some R =>
    have hgraph : R.graph = U.named := (runOnObjects_spec (hm.wellFormed U hU).names U.addr hR).1
    have hdef : ∃ data, (U.graph.kind X).data? = some data
        ∧ (U.graph.kind X).isDeclaration = false := by
      rcases TranslationUnit.definition_of_mem_objectsToJIT hX with ⟨data, _, _, _, hkind⟩
        | ⟨data, _, hkind⟩ <;> exact ⟨data, by rw [hkind]; rfl, by rw [hkind]; rfl⟩
    obtain ⟨data, hdata, hdecl⟩ := hdef
    have hnamed : ∃ data', (U.named.kind X).data? = some data' := by
      rcases (TranslationUnit.renamed_named U).kind X with hkind | ⟨-, name, hkind⟩ <;> rw [hkind]
      · exact ⟨data, hdata⟩
      · exact ⟨_, by rw [data?_setName, hdata]; rfl⟩
    obtain ⟨data', hdata'⟩ := hnamed
    refine Nat.pos_iff_ne_zero.1 ((hm.placed U hU R hR).value X data' (hgraph ▸ hdata') ?_).1
    rw [hgraph, (TranslationUnit.renamed_named U).isDeclaration X, hdecl]

/-- When the static initialisers have run, the tracker is that of a process in which everything that
is registered means what the program does: exactly what the units expose, each at its address. The
units may mean different things by names that they do not show. -/
theorem startup_sound (hDL : DL.Positive) (hptr : DL.pointerSize = 8)
    (hm : Loaded E DL units m) (hm' : Loaded E DL units m') (hS : SoundUnits I env E units)
    (h : programCalls E units = .ok cs) : ∃ T, ∃ regs : List (Registration (List UInt8) δ),
      Raw.startup m cs = .ok T ∧ ∀ layout modules symbolTable,
        let P : Process (List UInt8) δ := ⟨regs, layout, modules, symbolTable⟩
        T.Refines (δ := δ) m' P.tracker ∧ P.Sound I env
          ∧ ∀ p, (P.registration? p).isSome = true ↔ ∃ U ∈ units, ∃ X, Exposes E U X p := by
  obtain ⟨rs, hrs, hrep⟩ := programCalls_represent hDL hptr hm hm' h
  obtain ⟨T, hT, hrep⟩ := startup_represents hrep
  obtain ⟨regs, hregs⟩ := List.exists_forall₂ fun r hr => exists_registration_of hm' hS hrs
    (fun U hU X hX => addr_ne_zero hm h hU hX) (r := r) hr
  have hmap : regs.map (fun reg => (reg.fptr, reg.info)) = rs := by
    rw [← List.forall₂_eq_eq_eq, List.forall₂_map_left_iff]
    exact hregs.flip.imp fun _ _ h => h.1
  have hmem {reg : Registration (List UInt8) δ} (hreg : reg ∈ regs) : ∃ U ∈ units, ∃ X ∈
      U.objectsToJIT E, reg.fptr = U.addr (.value X) ∧ reg.info.name = U.named.getName X := by
    have hr : (reg.fptr, reg.info) ∈ rs := hmap ▸ List.mem_map_of_mem hreg
    obtain ⟨U, hU, X, hX, hX'⟩ := (mem_programRegistrations hrs).1 hr
    obtain ⟨own, hown⟩ := hS.sound U hU
    obtain ⟨haddr, hname, -⟩ := U.registration_sound (hm'.wellFormed U hU) hown hX hX'
    exact ⟨U, hU, X, hX, haddr, hname⟩
  refine ⟨T, regs, hT, fun layout modules symbolTable => ⟨?_, ⟨?_, ?_⟩, fun p => ?_⟩⟩
  · have htracker : BitcodeTracker.registerEach rs = BitcodeTracker.registerAll regs := by
      rw [← hmap, BitcodeTracker.registerEach, List.foldl_map]
      rfl
    show T.Refines m' (BitcodeTracker.registerAll regs)
    rw [← htracker]
    exact hrep.refines
  · intro reg hreg LM hLM
    obtain ⟨i, hi, rfl⟩ := List.mem_iff_getElem.1 hreg
    exact (hregs.get (hregs.length_eq.symm ▸ hi) hi).2 LM hLM
  · intro reg hreg reg' hreg' heq
    obtain ⟨U, hU, X, hX, haddr, hname⟩ := hmem hreg
    obtain ⟨U', hU', X', hX', haddr', hname'⟩ := hmem hreg'
    rw [hname, hname']
    exact hS.names U hU U' hU' X hX X' hX' (haddr.symm.trans (heq.trans haddr'))
  · rw [Process.registration?, List.find?_isSome, ← exists_mem_iff_exposes hrs, ← hmap]
    simp only [List.mem_map, exists_exists_and_eq_and, decide_eq_true_eq]

theorem extractOnly_keepVariables {ν : Type} [DecidableEq ν] :
    (extractOnly : Passes ν).KeepVariables where
  gvExtraction gvs M GV data initializer hGV hkind _ := by
    refine ⟨data.makeVisible, ?_, ?_⟩
    · simp [extractOnly, hkind, extractGV, hGV]
    · unfold GlobalData.makeVisible
      cases data.linkage <;> rfl
  keeps pass hpass M GV data initializer hkind _ := by
    simp only [extractOnly, List.mem_cons, List.not_mem_nil, or_false, or_self] at hpass
    rw [hpass]
    rfl

end Program

section Samples

/-! ### Two units with a static function of one name -/

inductive HelperValue
  | start | helper | call
  deriving DecidableEq

instance : Fintype HelperValue where
  elems := ⟨↑[HelperValue.start, .helper, .call], by decide⟩
  complete V := by cases V <;> decide

/-- `start` calls a static function, which does nothing. -/
def readsHelper : ModuleGraph HelperValue where
  nodes := [.start, .helper, .call]
  mem_nodes := by decide
  nodup_nodes := by decide
  kind
    | .start => .function { name := "start" } [] (some [.call]) []
    | .helper =>
      .function { name := "helper", linkage := .internalLinkage } [.noInline] (some []) []
    | .call => .instruction [.helper]

def helperReading : Reading HelperValue Unit where
  op _ := .other "value"
  info _ _ := .variable .void
  denotes _ := none

/-- What the unit means by its names. -/
def meansOf : String → ℕ → ℕ
  | _, 0 => 0
  | "start", n + 1 => 1 + meansOf "helper" n
  | "helper", _ + 1 => 1
  | _, _ + 1 => 0

/-- What the program means by the names that are shown. -/
def programMeans (m : String) : ℕ → ℕ := if m = "start" then meansOf m else definitionsOf m

theorem readsHelper_namesUnique : readsHelper.NamesUnique := namesUnique_of_names (by decide)

theorem readsHelper_meansProgram :
    readsHelper.MeansProgram helperReading countCalls meansOf := by
  have hstart : (readsHelper.program helperReading).definition? (.ext .start)
      = some ⟨.variable .void, [⟨.other "value", []⟩, ⟨.other "value", [⟨.ext .helper, none⟩]⟩]⟩ :=
    rfl
  have hhelper : (readsHelper.program helperReading).definition? (.ext .helper)
      = some ⟨.variable .void, [⟨.other "value", []⟩]⟩ := rfl
  have hmeaning : ∀ n, (readsHelper.program helperReading).meaning countCalls
        (readsHelper.declared countCalls meansOf) n (.ext .helper) = meansOf "helper" n
      ∧ (readsHelper.program helperReading).meaning countCalls
        (readsHelper.declared countCalls meansOf) n (.ext .start) = meansOf "start" n := by
    intro n
    induction n with
    | zero => simp [Module.meaning, meansOf, countCalls]
    | succ n ih =>
      simp [Module.meaning_succ hstart, Module.meaning_succ hhelper, interpret_countCalls, meansOf,
        ih.1]
  intro U data hU n
  obtain ⟨hhelper', hstart'⟩ := hmeaning (n + 1)
  cases U with
  | start =>
    cases hU
    exact hstart'
  | helper =>
    cases hU
    exact hhelper'
  | call => cases hU

def hostHelper : HostModule HelperValue where
  values := readsHelper.nodes
  mem_values := readsHelper.mem_nodes
  kind
    | .start | .helper => .function false
    | .call => .call .helper []
  users
    | .helper => [.call]
    | _ => []
  mem_users := by decide
  constant_operands := by decide
  getName
    | .start => "start"
    | .helper => "helper"
    | .call => ""
  getSection X := if X = .start then JIT_SECTION else ""
  stripPointerCasts := id

theorem sameModule_helper : SameModule hostHelper readsHelper := by
  constructor
  · have : ∀ V, ∀ data ∈ (readsHelper.kind V).data?, hostHelper.getName V = data.name := by decide
    exact this
  · decide
  · have : ∀ V, (hostHelper.kind V).isGlobalVariable = false := by decide
    intro V
    rw [this]
    refine ⟨fun h => absurd h (by decide), ?_⟩
    rintro ⟨data, initializer, h⟩
    cases V <;> cases h
  · decide

def unitHelper : TranslationUnit Unit where
  Value := HelperValue
  decEq := inferInstance
  host := hostHelper
  graph := readsHelper
  same := sameModule_helper
  reading := helperReading
  passes := extractOnly
  addr
    | .value X => 0x8000 + 0x1000 * X.ctorIdx
    | .added index => 0x20000 + 0x100 * index

theorem objectsToJIT_helper : unitHelper.objectsToJIT annotatedOnly = [HelperValue.start] := by
  show (collectObjectsToJIT hostHelper annotatedOnly).2 = [HelperValue.start]
  decide

theorem wellFormed_helper : unitHelper.WellFormed where
  names := {
    cString := by
      have h : ∀ X : HelperValue, ∀ data ∈ (readsHelper.kind X).data?, IsCString data.name := by
        decide
      exact h
    unique := fun X Y data data' hX hY heq _ => readsHelper_namesUnique X Y data data' hX hY heq }
  local_defined := by
    have h : ∀ X : HelperValue, ∀ data ∈ (readsHelper.kind X).data?, data.linkage.isLocal = true →
        (readsHelper.kind X).isDeclaration = false := by decide
    exact h

/-- The embedded module of `start`. -/
def embeddedStart : LModule Unit :=
  match cleanModule readsHelper extractOnly .start with
  | .ok Embed => Embed.toModule helperReading
  | .error _ => .empty

theorem embeddedMain_ne_embeddedStart : embeddedMain ≠ embeddedStart := by
  intro h
  have hnext : embeddedMain.next = embeddedStart.next := congrArg Module.next h
  exact absurd hnext (by decide)

section

variable [F : BitcodeFormat (List UInt8) Unit]

/-- What the pass adds to the unit. -/
def addedHelper : List (AddedGlobal HelperValue) :=
  [⟨0, "start_bitcode", getString (F.write embeddedStart)⟩,
    ⟨1, "global_mapping", .array (.array 1 entryTy) [.null entryTy]⟩,
    ⟨2, "start_name", getString (utf8 "start")⟩]

theorem runOnModule_helper : ∃ ctor, unitHelper.runOnModule annotatedOnly
    = .ok (some ⟨readsHelper, addedHelper, ctor⟩) := by
  rw [TranslationUnit.runOnModule, objectsToJIT_helper]
  exact ⟨_, rfl⟩

def blocksHelper : List (ℕ × List (Option UInt8)) :=
  addedHelper.map fun g =>
    (unitHelper.addr (.added g.index), g.init.placedImage DataLayout.x86_64 unitHelper.addr)

theorem blocksHelper_places (hF : F.write embeddedStart = [0x42, 0x44]) :
    blocksHelper.map (fun b => (b.1, b.2.length)) = [(0x20000, 3), (0x20100, 16), (0x20200, 6)]
      ∧ ∀ g ∈ addedHelper, 0 < unitHelper.addr (.added g.index) ∧ unitHelper.addr (.added g.index)
          + DataLayout.x86_64.getTypeAllocSize g.init.type ≤ 2 ^ 64 := by
  rw [blocksHelper, addedHelper, hF]
  decide

theorem placed_helper (hF : F.write embeddedStart = [0x42, 0x44]) {m : ByteMemory}
    (hm : ∀ b ∈ blocksHelper, HoldsImage m b.1 b.2) {R : RegisteredModule HelperValue}
    (hR : unitHelper.runOnModule annotatedOnly = .ok (some R)) :
    R.Placed DataLayout.x86_64 unitHelper.addr m := by
  obtain ⟨ctor, hR'⟩ := runOnModule_helper
  rw [hR] at hR'
  cases hR'
  constructor
  · exact fun g hg => hm _ (List.mem_map_of_mem hg)
  · exact (blocksHelper_places hF).2
  · intro X data hX _
    have haddr : ∀ X : HelperValue,
        0 < 0x8000 + 0x1000 * X.ctorIdx ∧ 0x8000 + 0x1000 * X.ctorIdx < 2 ^ 64 := by decide
    exact haddr X

variable (hmain : F.write embeddedMain = [0x42, 0x43])
  (hstart : F.write embeddedStart = [0x42, 0x44])

include hmain hstart

theorem loaded_units : Loaded annotatedOnly DataLayout.x86_64 [unitStatic, unitHelper]
    (memoryOf (blocksStatic ++ blocksHelper)) := by
  have hapart : (blocksStatic ++ blocksHelper).Pairwise fun b b' => b.1 + b.2.length ≤ b'.1 := by
    have h : ((blocksStatic ++ blocksHelper).map fun b => (b.1, b.2.length)).Pairwise
        fun b b' => b.1 + b.2 ≤ b'.1 := by
      rw [List.map_append, (blocksStatic_places hmain).1, (blocksHelper_places hstart).1]
      decide
    exact List.pairwise_map.1 h
  have hholds : ∀ b ∈ blocksStatic ++ blocksHelper,
      HoldsImage (memoryOf (blocksStatic ++ blocksHelper)) b.1 b.2 :=
    fun b hb => holdsImage_memoryOf hapart hb
  rw [List.forall_mem_append] at hholds
  constructor
  · rintro U (_ | ⟨_, _ | ⟨_, ⟨⟩⟩⟩)
    · exact wellFormed_static
    · exact wellFormed_helper
  · rintro U (_ | ⟨_, _ | ⟨_, ⟨⟩⟩⟩) R hR
    · exact placed_static hmain hholds.1 hR
    · exact placed_helper hstart hholds.2 hR

end

theorem programCalls_units [F : BitcodeFormat (List UInt8) Unit] :
    ∃ cs, programCalls annotatedOnly [unitStatic, unitHelper] = .ok cs := by
  obtain ⟨ctor, hR⟩ := runOnModule_static
  obtain ⟨ctor', hR'⟩ := runOnModule_helper
  exact ⟨_, by
    rw [programCalls, TranslationUnit.calls, hR, programCalls, TranslationUnit.calls, hR']
    rfl⟩

/-- The copy of `main` shows `main` and the variable. -/
theorem sound_static : unitStatic.Sound countCalls programMeans definitionsOf annotatedOnly where
  documented := extractOnly_documented
  keepReferences := extractOnly_keepReferences
  keepVariables := extractOnly_keepVariables
  hasName X data hX _ := by
    have hname : ∀ X : StaticValue, ∀ data ∈ (readsStatic.kind X).data?, data.name ≠ "" := by decide
    exact hname X data hX
  ignoresAttributes _ _ _ := rfl
  meansProgram := readsStatic_meansProgram
  shown X _ Embed hclean m hm n := by
    have hcut : CutDown readsStatic Embed :=
      cutDown_of_cleanModule extractOnly_documented extractOnly_keepReferences hclean
    obtain ⟨W, data, hdata, -, rfl⟩ := hm
    obtain ⟨data₀, hdata₀, hname⟩ := hcut.name hdata
    have hne : ∀ W, ∀ data ∈ (readsStatic.kind W).data?, data.name ≠ "start" := by decide
    rw [programMeans, if_neg (hname ▸ hne W data₀ hdata₀)]
  exposed X hX data initializer hkind := by
    rw [objectsToJIT_static] at hX
    obtain rfl : X = StaticValue.main := List.mem_singleton.1 hX
    cases hkind

/-- The copy of `start` shows `start` only. -/
theorem sound_helper : unitHelper.Sound countCalls programMeans meansOf annotatedOnly where
  documented := extractOnly_documented
  keepReferences := extractOnly_keepReferences
  keepVariables := extractOnly_keepVariables
  hasName X data hX _ := by
    have hname : ∀ X : HelperValue, ∀ data ∈ (readsHelper.kind X).data?, data.name ≠ "" := by decide
    exact hname X data hX
  ignoresAttributes _ _ _ := rfl
  meansProgram := readsHelper_meansProgram
  shown X hX Embed hclean m hm n := by
    rw [objectsToJIT_helper] at hX
    obtain rfl : X = HelperValue.start := List.mem_singleton.1 hX
    have hstart : cleanModule readsHelper extractOnly .start = .ok _ := rfl
    obtain rfl := Except.ok.inj (hclean.symm.trans hstart)
    obtain ⟨W, data, hdata, hlocal, rfl⟩ := hm
    cases W with
    | start =>
      cases hdata
      rfl
    | helper =>
      cases hdata
      cases hlocal
    | call => cases hdata
  exposed X hX data initializer hkind := by
    rw [objectsToJIT_helper] at hX
    obtain rfl : X = HelperValue.start := List.mem_singleton.1 hX
    cases hkind

theorem soundUnits_helpers :
    SoundUnits countCalls programMeans annotatedOnly [unitStatic, unitHelper] where
  sound := by
    rintro U (_ | ⟨_, _ | ⟨_, ⟨⟩⟩⟩)
    · exact ⟨_, sound_static⟩
    · exact ⟨_, sound_helper⟩
  names := by
    have hmain : ∀ X ∈ unitStatic.objectsToJIT annotatedOnly,
        unitStatic.addr (.value X) = 0x1000 ∧ unitStatic.named.getName X = "main" := by
      rw [objectsToJIT_static]
      exact List.forall_mem_singleton.2 ⟨rfl, rfl⟩
    have hstart : ∀ X ∈ unitHelper.objectsToJIT annotatedOnly,
        unitHelper.addr (.value X) = 0x8000 ∧ unitHelper.named.getName X = "start" := by
      rw [objectsToJIT_helper]
      exact List.forall_mem_singleton.2 ⟨rfl, rfl⟩
    rintro U (_ | ⟨_, _ | ⟨_, ⟨⟩⟩⟩) U' (_ | ⟨_, _ | ⟨_, ⟨⟩⟩⟩) X hX X' hX' heq
    · rw [(hmain X hX).2, (hmain X' hX').2]
    · rw [(hmain X hX).1, (hstart X' hX').1] at heq
      cases heq
    · rw [(hstart X hX).1, (hmain X' hX').1] at heq
      cases heq
    · rw [(hstart X hX).2, (hstart X' hX').2]

/-- Two units with static functions of one name, which mean different things. -/
theorem startup_sound_static : ∃ (_ : BitcodeFormat (List UInt8) Unit) (m : ByteMemory)
    (T : Raw.BitcodeTracker) (P : Process (List UInt8) Unit), T.Refines (δ := Unit) m P.tracker
      ∧ P.Sound countCalls programMeans ∧ (P.registration? 0x1000).isSome = true
      ∧ (P.registration? 0x8000).isSome = true := by
  have hbs : ([0x42, 0x43] : List UInt8) ≠ [0x42, 0x44] := by decide
  obtain ⟨F, hmain, hstart⟩ := exists_bitcodeFormat_pair embeddedMain_ne_embeddedStart hbs
  obtain ⟨cs, hcs⟩ := programCalls_units
  obtain ⟨T, regs, -, h⟩ := startup_sound DataLayout.x86_64_positive rfl
    (loaded_units hmain hstart) (loaded_units hmain hstart) soundUnits_helpers hcs
  obtain ⟨href, hsound, hexposed⟩ :=
    h DataLayout.x86_64 (fun _ => Sample.compiled "main") Sample.symbolTable
  refine ⟨F, _, T, _, href, hsound,
    (hexposed _).2 ⟨unitStatic, by simp, .main, exposes_iff.2 ⟨?_, rfl⟩⟩,
    (hexposed _).2 ⟨unitHelper, by simp, .start, exposes_iff.2 ⟨?_, rfl⟩⟩⟩
  · rw [objectsToJIT_static]
    exact List.mem_singleton_self _
  · rw [objectsToJIT_helper]
    exact List.mem_singleton_self _

end Samples

end EasyJit.Embed
