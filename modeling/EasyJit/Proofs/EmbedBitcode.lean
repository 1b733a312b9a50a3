import EasyJit.Lib.Decimal
import EasyJit.Lib.Except
import EasyJit.Startup

/-!
# What is added

The bytes of a name are those of no other, and have no zero of their own (`zero_mem_utf8`). Naming
the local variables leaves everything else of the module (`nameGlobals_renamed`), and what the
initialiser registers for an object are constants that were added for it (`runOnObjects_spec`).
-/

namespace EasyJit.Embed

open LLVM

/-! ## The bytes of a name -/

section Utf8

theorem toByteArray_utf8 (s : String) : (utf8 s).toByteArray = s.toByteArray := by
  rw [← String.utf8Encode_toList]
  rfl

theorem utf8_injective : Function.Injective utf8 := by
  intro s t h
  rw [← String.toByteArray_inj, ← toByteArray_utf8, h, toByteArray_utf8]

theorem nameOfBytes_utf8 (s : String) : Raw.nameOfBytes (utf8 s) = s := by
  have hs : String.fromUTF8? s.toByteArray = some s := by
    rw [String.fromUTF8?, dif_pos s.isValidUTF8]
    rfl
  rw [Raw.nameOfBytes, toByteArray_utf8, hs, Option.getD_some]

theorem zero_mem_utf8EncodeChar {c : Char} (h : (0 : UInt8) ∈ String.utf8EncodeChar c) :
    c = '\x00' := by
  have hofNat {n : ℕ} (hn : n < 256) (h0 : (0 : UInt8) = UInt8.ofNat n) : n = 0 := by
    have := congrArg UInt8.toNat h0
    rw [UInt8.toNat_ofNat', Nat.mod_eq_of_lt hn] at this
    exact this.symm
  have hval : c.val.toNat = 0 := by
    simp only [String.utf8EncodeChar] at h
    split_ifs at h with h₁ h₂ h₃
    all_goals simp only [List.mem_cons, List.not_mem_nil, or_false] at h
    · exact hofNat (by omega) h
    · rcases h with h | h <;> have := hofNat (by omega) h <;> omega
    · rcases h with h | h | h <;> have := hofNat (by omega) h <;> omega
    · have hmax : c.val.toNat < 0x110000 := by
        have := c.valid
        rcases this with hc | ⟨-, hc⟩ <;> omega
      rcases h with h | h | h | h <;> have := hofNat (by omega) h <;> omega
  exact Char.ext (UInt32.toNat_inj.1 hval)

/-- The bytes of a C string end with its first zero. -/
theorem zero_not_mem_utf8 {s : String} (h : IsCString s) : (0 : UInt8) ∉ utf8 s := by
  intro h0
  obtain ⟨c, hc, h0⟩ := List.mem_flatMap.1 h0
  exact h (zero_mem_utf8EncodeChar h0 ▸ hc)

end Utf8

/-! ## Naming the local variables -/

section Names

variable {ν : Type} {M M' : ModuleGraph ν} {V GV : ν} {name : String}

theorem data?_setName (node : Node ν) (name : String) :
    (node.setName name).data? = node.data?.map fun data => { data with name := name } := by
  cases node <;> rfl

theorem isLocalVariable_setName (node : Node ν) (name : String) :
    (node.setName name).isLocalVariable = node.isLocalVariable := by
  cases node <;> rfl

theorem isDeclaration_setName (node : Node ν) (name : String) :
    (node.setName name).isDeclaration = node.isDeclaration := by
  cases node <;> rfl

theorem isFunction_setName (node : Node ν) (name : String) :
    (node.setName name).isFunction = node.isFunction := by
  cases node <;> rfl

theorem mem_usedNames : name ∈ M.usedNames
    ↔ ∃ V data, (M.kind V).data? = some data ∧ data.name = name := by
  simp only [ModuleGraph.usedNames, List.mem_filterMap, M.mem_nodes, true_and,
    Option.map_eq_some_iff]

theorem getName_of_data? {data : GlobalData} (h : (M.kind V).data? = some data) :
    M.getName V = data.name := by
  rw [ModuleGraph.getName, h]
  rfl

theorem uniqueName_spec (M : ModuleGraph ν) (base : String) : M.uniqueName base ∉ M.usedNames
    ∧ (M.uniqueName base = base ∨ ∃ k : ℕ, M.uniqueName base = base ++ "." ++ toString k) := by
  unfold ModuleGraph.uniqueName
  by_cases hbase : base ∈ M.usedNames
  · have hinj : Function.Injective fun k : ℕ => base ++ "." ++ toString (k + 1) := by
      intro j k hjk
      have := congrArg String.toList hjk
      simp only [String.toList_append, List.append_cancel_left_eq, String.toList_inj] at this
      exact Nat.succ_injective (Decimal.toString_injective this)
    obtain ⟨k, hk, hunused⟩ := Decimal.exists_unused hinj M.usedNames
    rw [if_neg (not_not.2 hbase), hk, Option.getD_some]
    exact ⟨hunused, .inr ⟨k + 1, rfl⟩⟩
  · rw [if_pos hbase]
    exact ⟨hbase, .inl rfl⟩

theorem isCString_uniqueName {base : String} (h : IsCString base) :
    IsCString (M.uniqueName base) := by
  rcases (uniqueName_spec M base).2 with hname | ⟨k, hname⟩
  · rwa [hname]
  · rw [hname, IsCString, String.toList_append, String.toList_append, Decimal.toList_toString]
    simp only [List.mem_append, not_or]
    exact ⟨⟨h, by decide⟩, Decimal.not_mem_toDigits rfl k⟩

theorem uniqueName_ne_empty {base : String} (h : base ≠ "") : M.uniqueName base ≠ "" := by
  rcases (uniqueName_spec M base).2 with hname | ⟨k, hname⟩
  · rwa [hname]
  · rw [hname]
    intro hempty
    simp only [String.append_eq_empty_iff] at hempty
    exact h hempty.1.1

/-- The same module, but for names of values that had none. -/
structure Renamed (M M' : ModuleGraph ν) : Prop where
  kind : ∀ V, M'.kind V = M.kind V ∨ M.getName V = "" ∧ ∃ name, M'.kind V = (M.kind V).setName name

theorem Renamed.isLocalVariable (h : Renamed M M') (V : ν) :
    (M'.kind V).isLocalVariable = (M.kind V).isLocalVariable := by
  rcases h.kind V with hV | ⟨-, name, hV⟩ <;> rw [hV]
  exact isLocalVariable_setName _ _

theorem Renamed.isDeclaration (h : Renamed M M') (V : ν) :
    (M'.kind V).isDeclaration = (M.kind V).isDeclaration := by
  rcases h.kind V with hV | ⟨-, name, hV⟩ <;> rw [hV]
  exact isDeclaration_setName _ _

theorem Renamed.isFunction (h : Renamed M M') (V : ν) :
    (M'.kind V).isFunction = (M.kind V).isFunction := by
  rcases h.kind V with hV | ⟨-, name, hV⟩ <;> rw [hV]
  exact isFunction_setName _ _

/-- A global value has the same linkage and the like. -/
theorem Renamed.data? (h : Renamed M M') {data' : GlobalData}
    (hV : (M'.kind V).data? = some data') :
    ∃ data, (M.kind V).data? = some data ∧ data' = { data with name := data'.name }
      ∧ (data.name ≠ "" → data'.name = data.name) := by
  rcases h.kind V with hkind | ⟨hname, name, hkind⟩ <;> rw [hkind] at hV
  · exact ⟨data', hV, rfl, fun _ => rfl⟩
  · rw [data?_setName] at hV
    obtain ⟨data, hdata, rfl⟩ := Option.map_eq_some_iff.1 hV
    exact ⟨data, hdata, rfl, fun hne => absurd (getName_of_data? hdata ▸ hname) hne⟩

variable [DecidableEq ν]

theorem kind_nameGlobal (M : ModuleGraph ν) (name : String) (GV V : ν) :
    (nameGlobal name M GV).kind V
      = if V = GV ∧ M.getName GV = "" then (M.kind GV).setName (M.uniqueName name)
        else M.kind V := by
  unfold nameGlobal
  by_cases hname : M.getName GV = "" <;> by_cases hV : V = GV
  · subst hV
    simp [hname, ModuleGraph.setKind]
  all_goals simp [hname, hV, ModuleGraph.setKind]

theorem Renamed.nameGlobal {M₀ : ModuleGraph ν} (h : Renamed M₀ M) (name : String) (GV : ν) :
    Renamed M₀ (nameGlobal name M GV) where
  kind V := by
    rw [kind_nameGlobal]
    split_ifs with hV
    · obtain ⟨rfl, hname⟩ := hV
      rcases h.kind V with hkind | ⟨hname₀, name', hkind⟩
      · refine .inr ⟨?_, _, by rw [hkind]⟩
        rwa [ModuleGraph.getName, hkind] at hname
      · refine .inr ⟨hname₀, M.uniqueName name, ?_⟩
        rw [hkind]
        cases M₀.kind V <;> rfl
    · exact h.kind V

theorem nameGlobals_renamed (M : ModuleGraph ν) (Globals : List ν) (name : String) :
    Renamed M (nameGlobals M Globals name) := by
  have hrun : ∀ (Globals : List ν) (M₁ : ModuleGraph ν), Renamed M M₁ →
      Renamed M (nameGlobals M₁ Globals name) := by
    intro Globals
    induction Globals with
    | nil => exact fun _ h => h
    | cons GV Globals ih => exact fun M₁ h => ih _ (h.nameGlobal name GV)
  exact hrun Globals M ⟨fun V => .inl rfl⟩

/-- A new name is one that no value had. -/
theorem ModuleGraph.WellNamed.nameGlobal (h : M.WellNamed) (hname : IsCString name) (GV : ν) :
    (nameGlobal name M GV).WellNamed := by
  have hdata {V : ν} {data' : GlobalData}
      (hV : ((Embed.nameGlobal name M GV).kind V).data? = some data') :
      (V = GV ∧ data'.name = M.uniqueName name) ∨ (M.kind V).data? = some data' := by
    rw [kind_nameGlobal] at hV
    split_ifs at hV with hGV
    · rw [data?_setName] at hV
      obtain ⟨data, -, rfl⟩ := Option.map_eq_some_iff.1 hV
      exact .inl ⟨hGV.1, rfl⟩
    · exact .inr hV
  have hfresh {V : ν} {data : GlobalData} (hV : (M.kind V).data? = some data) :
      data.name ≠ M.uniqueName name :=
    fun heq => (uniqueName_spec M name).1 (mem_usedNames.2 ⟨V, data, hV, heq⟩)
  refine ⟨fun V data hV => ?_, fun U V data data' hU hV heq hne => ?_⟩
  · rcases hdata hV with ⟨-, heq⟩ | hV
    · rw [heq]
      exact isCString_uniqueName hname
    · exact h.cString V data hV
  · rcases hdata hU with ⟨rfl, hnew⟩ | hU' <;> rcases hdata hV with ⟨rfl, hnew'⟩ | hV'
    · rfl
    · exact absurd (heq.symm.trans hnew) (hfresh hV')
    · exact absurd (heq.trans hnew') (hfresh hU')
    · exact h.unique U V data data' hU' hV' heq hne

theorem ModuleGraph.WellNamed.nameGlobals (h : M.WellNamed) (hname : IsCString name)
    (Globals : List ν) : (nameGlobals M Globals name).WellNamed := by
  induction Globals generalizing M with
  | nil => exact h
  | cons GV Globals ih => exact ih (h.nameGlobal hname GV)

theorem getName_nameGlobal (hname : name ≠ "") (hGV : (M.kind GV).data?.isSome = true) :
    (nameGlobal name M GV).getName GV ≠ "" := by
  unfold nameGlobal
  split_ifs with hempty
  · obtain ⟨data, hdata⟩ := Option.isSome_iff_exists.1 hGV
    simp [ModuleGraph.getName, ModuleGraph.setKind, data?_setName, hdata, uniqueName_ne_empty hname]
  · exact hempty

theorem getName_nameGlobal_of_ne (hV : M.getName V ≠ "") (name : String) (GV : ν) :
    (nameGlobal name M GV).getName V = M.getName V := by
  rw [ModuleGraph.getName, kind_nameGlobal, if_neg]
  · rfl
  · rintro ⟨rfl, hempty⟩
    exact hV hempty

theorem getName_nameGlobals_of_ne (hV : M.getName V ≠ "") (name : String) (Globals : List ν) :
    (nameGlobals M Globals name).getName V = M.getName V := by
  induction Globals generalizing M with
  | nil => rfl
  | cons GV Globals ih =>
    have hstep := getName_nameGlobal_of_ne hV name GV
    exact (ih (hstep ▸ hV)).trans hstep

/-- The local variables have names. -/
theorem getName_nameGlobals (hname : name ≠ "") {Globals : List ν}
    (hGlobals : ∀ GV ∈ Globals, (M.kind GV).data?.isSome = true) (hGV : GV ∈ Globals) :
    (nameGlobals M Globals name).getName GV ≠ "" := by
  induction Globals generalizing M with
  | nil => cases hGV
  | cons GV₀ Globals ih =>
    rcases List.mem_cons.1 hGV with rfl | hGV
    · have hne := getName_nameGlobal hname (hGlobals GV List.mem_cons_self)
      rw [nameGlobals, List.foldl_cons]
      exact (getName_nameGlobals_of_ne hne name Globals).symm ▸ hne
    · refine ih (fun V hV => ?_) hGV
      have := hGlobals V (List.mem_cons_of_mem _ hV)
      rw [kind_nameGlobal]
      split_ifs with hV₀
      · rw [data?_setName, Option.isSome_map, ← hV₀.1, this]
      · exact this

end Names

/-! ## The constants -/

section Added

variable {ν δ : Type} {L : Reading ν δ} {M : ModuleGraph ν} {addr : HostSym ν → Ptr}
  {added added' : List (AddedGlobal ν)}

theorem symbolAddress_getPointerCast (c : Constant (HostSym ν)) (ty : Ty) :
    (getPointerCast c ty).symbolAddress addr = c.symbolAddress addr := by
  unfold getPointerCast
  split_ifs <;> rfl

theorem symbolAddress_ref (g : AddedGlobal ν) :
    g.ref.symbolAddress addr = some (addr (.added g.index)) := rfl

/-- The constant is a string of these bytes. -/
def AddedString (added : List (AddedGlobal ν)) (bs : List UInt8) (index : ℕ) : Prop :=
  ∃ g ∈ added, g.index = index ∧ g.init = getString bs

theorem AddedString.mono {bs : List UInt8} {index : ℕ} (h : AddedString added bs index)
    (hsub : added ⊆ added') : AddedString added' bs index :=
  h.imp fun _ hg => ⟨hsub hg.1, hg.2⟩

theorem addGlobal_added (added : List (AddedGlobal ν)) (name : String)
    (init : Constant (HostSym ν)) : added ⊆ (addGlobal added name init).1
      ∧ (addGlobal added name init).2 ∈ (addGlobal added name init).1 :=
  ⟨List.subset_append_left _ _, List.mem_append_right _ (List.mem_singleton_self _)⟩

theorem getStringGlobal_added (added : List (AddedGlobal ν)) (name : String) :
    AddedString (getStringGlobal added name).1 (utf8 name) (getStringGlobal added name).2.index :=
  ⟨_, (addGlobal_added _ _ _).2, rfl, rfl⟩

/-- The entry of a local variable points to its name and to it. -/
def IsEntry (M : ModuleGraph ν) (addr : HostSym ν → Ptr) (added : List (AddedGlobal ν)) (GV : ν)
    (c : Constant (HostSym ν)) : Prop :=
  ∃ index Name Address, AddedString added (utf8 (M.getName GV)) index
    ∧ c = .struct entryTy [Name, Address] ∧ Name.symbolAddress addr = some (addr (.added index))
    ∧ Address.symbolAddress addr = some (addr (.value GV))

theorem IsEntry.mono {GV : ν} {c : Constant (HostSym ν)} (h : IsEntry M addr added GV c)
    (hsub : added ⊆ added') : IsEntry M addr added' GV c := by
  obtain ⟨index, Name, Address, hname, h⟩ := h
  exact ⟨index, Name, Address, hname.mono hsub, h⟩

theorem addEntry_added (addr : HostSym ν → Ptr)
    (st : List (AddedGlobal ν) × List (Constant (HostSym ν))) (GV : ν) :
    ∃ added' c, addEntry L M st GV = (added', st.2 ++ [c]) ∧ st.1 ⊆ added'
      ∧ IsEntry M addr added' GV c := by
  refine ⟨_, _, rfl, (addGlobal_added _ _ _).1, _, _, _, getStringGlobal_added st.1 (M.getName GV),
    rfl, ?_, ?_⟩ <;> rw [symbolAddress_getPointerCast] <;> rfl

theorem foldl_addEntry (addr : HostSym ν → Ptr) : ∀ (Globals : List ν)
    (st : List (AddedGlobal ν) × List (Constant (HostSym ν))), ∃ added' Entries,
      Globals.foldl (addEntry L M) st = (added', st.2 ++ Entries)
        ∧ st.1 ⊆ added' ∧ List.Forall₂ (IsEntry M addr added') Globals Entries
  | [], st => ⟨st.1, [], by simp, fun _ h => h, .nil⟩
  | GV :: Globals, st => by
    obtain ⟨added₁, c, hstep, hsub₁, hc⟩ := addEntry_added (L := L) (M := M) addr st GV
    obtain ⟨added', Entries, hfold, hsub, hentries⟩ :=
      foldl_addEntry addr Globals (added₁, st.2 ++ [c])
    refine ⟨added', c :: Entries, ?_, fun _ h => hsub (hsub₁ h), .cons (hc.mono hsub) hentries⟩
    rw [List.foldl_cons, hstep, hfold, List.append_assoc, List.singleton_append]

/-- The constant is a table of the local variables. -/
def AddedTable (M : ModuleGraph ν) (addr : HostSym ν → Ptr) (added : List (AddedGlobal ν))
    (Globals : List ν) (index : ℕ) : Prop :=
  ∃ g ∈ added, ∃ Entries, g.index = index
    ∧ g.init = .array (.array (Entries.length + 1) entryTy) (Entries ++ [.null entryTy])
    ∧ List.Forall₂ (IsEntry M addr added) Globals Entries

theorem AddedTable.mono {Globals : List ν} {index : ℕ} (h : AddedTable M addr added Globals index)
    (hsub : added ⊆ added') : AddedTable M addr added' Globals index := by
  obtain ⟨g, hg, Entries, hindex, hinit, hentries⟩ := h
  exact ⟨g, hsub hg, Entries, hindex, hinit, hentries.imp fun _ _ h => h.mono hsub⟩

theorem getGlobalMapping_added (addr : HostSym ν → Ptr) (added : List (AddedGlobal ν))
    (Globals : List ν) : added ⊆ (getGlobalMapping L M added Globals).1
      ∧ AddedTable M addr (getGlobalMapping L M added Globals).1 Globals
        (getGlobalMapping L M added Globals).2.index := by
  obtain ⟨added', Entries, hfold, hsub, hentries⟩ :=
    foldl_addEntry (L := L) (M := M) addr Globals (added, [])
  have hadd := addGlobal_added added' "global_mapping"
    (.array (.array (Entries.length + 1) entryTy) (Entries ++ [.null entryTy]))
  have heq : getGlobalMapping L M added Globals = addGlobal added' "global_mapping"
      (.array (.array (Entries.length + 1) entryTy) (Entries ++ [.null entryTy])) := by
    rw [getGlobalMapping, hfold]
    simp
  rw [heq]
  exact ⟨fun _ h => hadd.1 (hsub h), _, hadd.2, Entries, rfl, rfl,
    hentries.imp fun _ _ h => h.mono hadd.1⟩

/-- The call registers an object under its name, with the table, and with a string of bytes. -/
def IsCall (M : ModuleGraph ν) (addr : HostSym ν → Ptr) (added : List (AddedGlobal ν))
    (table : ℕ) (x : ν × AddedGlobal ν) (c : RegisterCall ν) : Prop :=
  ∃ index, AddedString added (utf8 (M.getName x.1)) index
    ∧ c.evaluate addr = ⟨⟨addr (.added index), addr (.added table), addr (.added x.2.index),
      (BitVec.ofNat 64 (getNumElements x.2.init.type - 1)).toNat⟩, addr (.value x.1)⟩

theorem IsCall.mono {table : ℕ} {x : ν × AddedGlobal ν} {c : RegisterCall ν}
    (h : IsCall M addr added table x c) (hsub : added ⊆ added') :
    IsCall M addr added' table x c := by
  obtain ⟨index, hname, h⟩ := h
  exact ⟨index, hname.mono hsub, h⟩

theorem addCall_added (addr : HostSym ν → Ptr) (gm : AddedGlobal ν)
    (st : List (AddedGlobal ν) × List (RegisterCall ν)) (x : ν × AddedGlobal ν) :
    ∃ added' c, addCall L M gm st x = (added', st.2 ++ [c]) ∧ st.1 ⊆ added'
      ∧ IsCall M addr added' gm.index x c := by
  refine ⟨_, _, rfl, (addGlobal_added _ _ _).1, _, getStringGlobal_added st.1 (M.getName x.1), ?_⟩
  simp only [RegisterCall.evaluate, symbolAddress_getPointerCast, symbolAddress_ref,
    Constant.symbolAddress, Option.getD_some]
  rfl

theorem foldl_addCall (addr : HostSym ν → Ptr) (gm : AddedGlobal ν) :
    ∀ (xs : List (ν × AddedGlobal ν)) (st : List (AddedGlobal ν) × List (RegisterCall ν)),
    ∃ added' calls, xs.foldl (addCall L M gm) st = (added', st.2 ++ calls)
      ∧ st.1 ⊆ added' ∧ List.Forall₂ (IsCall M addr added' gm.index) xs calls
  | [], st => ⟨st.1, [], by simp, fun _ h => h, .nil⟩
  | x :: xs, st => by
    obtain ⟨added₁, c, hstep, hsub₁, hc⟩ := addCall_added (L := L) (M := M) addr gm st x
    obtain ⟨added', calls, hfold, hsub, hcalls⟩ := foldl_addCall addr gm xs (added₁, st.2 ++ [c])
    refine ⟨added', c :: calls, ?_, fun _ h => hsub (hsub₁ h), .cons (hc.mono hsub) hcalls⟩
    rw [List.foldl_cons, hstep, hfold, List.append_assoc, List.singleton_append]

theorem eq_of_getNamedValue (hM : M.WellNamed) {X V : ν}
    (h : M.getNamedValue (M.getName X) = some V) : V = X := by
  unfold ModuleGraph.getNamedValue at h
  split_ifs at h with hname
  have hV := List.find?_some h
  obtain ⟨data, hdata, heq⟩ := (Option.any_eq_true _ _).1 hV
  cases hX : (M.kind X).data? with
  | none => simp [ModuleGraph.getName, hX] at hname
  | some data' =>
    rw [getName_of_data? hX, decide_eq_true_iff] at heq
    exact hM.unique V X data data' hdata hX heq fun hempty =>
      hname (by rw [getName_of_data? hX, ← heq, hempty])

variable [DecidableEq ν] [BitcodeFormat (List UInt8) δ] {passes : Passes ν}

/-- The constant has the bitcode of the embedded module of an object. -/
def IsBitcode (L : Reading ν δ) (M : ModuleGraph ν) (passes : Passes ν)
    (added : List (AddedGlobal ν)) (X : ν) (g : AddedGlobal ν) : Prop :=
  ∃ Embed, cleanModule M passes X = .ok Embed ∧ g ∈ added
    ∧ g.init = getString (BitcodeFormat.write (Embed.toModule L))

theorem embedBitcode_added (hM : M.WellNamed) {X : ν} {g : AddedGlobal ν}
    (h : embedBitcode L M passes added X = .ok (added', g)) :
    added ⊆ added' ∧ IsBitcode L M passes added' X g := by
  unfold embedBitcode at h
  split at h
  · cases h
  · rename_i FEmbed hF
    obtain ⟨Embed, hclean, h⟩ := Except.bind_eq_ok.1 h
    cases h
    exact ⟨(addGlobal_added _ _ _).1, Embed, eq_of_getNamedValue hM hF ▸ hclean,
      (addGlobal_added _ _ _).2, rfl⟩

theorem embedBitcodes_added (hM : M.WellNamed) : ∀ {Objs : List ν}
    {added added' gs : List (AddedGlobal ν)},
    embedBitcodes L M passes Objs added = .ok (added', gs) →
    added ⊆ added' ∧ List.Forall₂ (IsBitcode L M passes added') Objs gs
  | [], _, _, _, h => by
    cases h
    exact ⟨fun _ h => h, .nil⟩
  | X :: Objs, added, added', gs, h => by
    rw [embedBitcodes] at h
    obtain ⟨⟨added₁, g⟩, hX, h⟩ := Except.bind_eq_ok.1 h
    obtain ⟨⟨added₂, gs'⟩, hObjs, h⟩ := Except.bind_eq_ok.1 h
    cases h
    obtain ⟨hsub₁, Embed, hclean, hg, hinit⟩ := embedBitcode_added hM hX
    obtain ⟨hsub, hgs⟩ := embedBitcodes_added hM hObjs
    exact ⟨fun _ h => hsub (hsub₁ h), .cons ⟨Embed, hclean, hsub hg, hinit⟩ hgs⟩

/-- What the initialiser registers for an object: its address, its name, the table of the local
variables, and the bitcode of its embedded module. -/
def Registers (L : Reading ν δ) (M : ModuleGraph ν) (passes : Passes ν)
    (addr : HostSym ν → Ptr) (added : List (AddedGlobal ν)) (Globals : List ν) (X : ν)
    (c : RegisterCall ν) : Prop :=
  ∃ Embed name table bitcode, cleanModule M passes X = .ok Embed
    ∧ AddedString added (utf8 (M.getName X)) name ∧ AddedTable M addr added Globals table
    ∧ AddedString added (BitcodeFormat.write (Embed.toModule L)) bitcode
    ∧ c.evaluate addr = ⟨⟨addr (.added name), addr (.added table), addr (.added bitcode),
      (BitVec.ofNat 64 (BitcodeFormat.write (Embed.toModule L)).length).toNat⟩, addr (.value X)⟩

theorem forall₂_of_zip {α β γ : Type} {P : α → β → Prop} {Q : α × β → γ → Prop}
    {R : α → γ → Prop} {as : List α} {bs : List β} {cs : List γ} (hP : List.Forall₂ P as bs)
    (hQ : List.Forall₂ Q (as.zip bs) cs) (h : ∀ a b c, P a b → Q (a, b) c → R a c) :
    List.Forall₂ R as cs := by
  induction hP generalizing cs with
  | nil =>
    cases hQ
    exact .nil
  | cons hab _ ih =>
    cases hQ with
    | cons hc hQ => exact .cons (h _ _ _ hab hc) (ih hQ)

theorem runOnObjects_spec (hM : M.WellNamed) {Objs : List ν} {R : RegisteredModule ν}
    (addr : HostSym ν → Ptr) (h : runOnObjects L M passes Objs = .ok (some R)) :
    R.graph = nameGlobals M (collectLocalGlobals M) "unnamed_local_global"
      ∧ List.Forall₂ (Registers L R.graph passes addr R.added (collectLocalGlobals M)) Objs
        R.ctor := by
  unfold runOnObjects at h
  split at h
  · cases h
  have hname : IsCString "unnamed_local_global" := by decide
  have hnamed := hM.nameGlobals hname (collectLocalGlobals M)
  dsimp only at h
  generalize nameGlobals M (collectLocalGlobals M) "unnamed_local_global" = M' at h hnamed ⊢
  obtain ⟨⟨added₁, Bitcode⟩, hbitcode, h⟩ := Except.bind_eq_ok.1 h
  obtain ⟨-, hgs⟩ := embedBitcodes_added hnamed hbitcode
  obtain ⟨hsub₁, htable⟩ := getGlobalMapping_added (L := L) (M := M') addr added₁
    (collectLocalGlobals M)
  dsimp only at h
  generalize getGlobalMapping L M' added₁ (collectLocalGlobals M) = mapping at h hsub₁ htable
  obtain ⟨added', calls, hfold, hsub₂, hcalls⟩ := foldl_addCall (L := L) (M := M') addr mapping.2
    (Objs.zip Bitcode) (mapping.1, [])
  rw [registerBitcode, hfold, List.nil_append] at h
  cases h
  refine ⟨rfl, forall₂_of_zip hgs hcalls fun X g c hg hc => ?_⟩
  obtain ⟨Embed, hclean, hmem, hinit⟩ := hg
  obtain ⟨name, hname, hc⟩ := hc
  refine ⟨Embed, name, mapping.2.index, g.index, hclean, hname, htable.mono hsub₂,
    ⟨g, hsub₂ (hsub₁ hmem), rfl, hinit⟩, ?_⟩
  rw [hc, hinit]
  rfl

end Added

end EasyJit.Embed
