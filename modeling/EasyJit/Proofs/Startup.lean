import EasyJit.Proofs.Bytes
import EasyJit.Proofs.EmbedBitcode
import EasyJit.Proofs.EmbedMeaning
import EasyJit.Proofs.Image

/-!
# What the tracker finds in memory

A string that was added is read back, and so is the table of the local variables
(`mapGlobals_table`). So the tracker with pointers keeps what the other one keeps, call after call
(`Represents.registerFunction`).
-/

namespace EasyJit

open LLVM Terminated

/-! ## A string -/

section Memory

variable {ν : Type} {DL : DataLayout} {addr : Embed.HostSym ν → Ptr} {m : ByteMemory} {p : ℕ}

/-- The cells that are known are in memory. -/
def HoldsImage (m : ByteMemory) (p : ℕ) (image : List (Option UInt8)) : Prop :=
  ∀ (i : ℕ) (b : UInt8), image[i]? = some (some b) → m (p + i) = some b

/-- What is in memory is what was stored, by stores that are apart. -/
theorem HoldsImage.stored {n : ℕ} {stores : List (ℕ × List (Option UInt8))}
    (h : HoldsImage m p (Memory.storeAll (List.replicate n none) stores))
    (hinside : ∀ s ∈ stores, s.1 + s.2.length ≤ n) (hapart : Memory.Apart stores) {o : ℕ}
    {bs : List UInt8} (hs : (o, bs.map some) ∈ stores) : m.Holds (p + o) bs := by
  intro i hi
  rw [Nat.add_assoc]
  refine h (o + i) bs[i] ?_
  have hi' : i < (bs.map some).length := by rwa [List.length_map]
  rw [Memory.storeAll_getElem? (fun s hs => by
    rw [List.length_replicate]
    exact hinside s hs) hapart _ hs i hi']
  simp

theorem length_le_allocSize (hDL : DL.Positive) (n : ℕ) :
    n ≤ DL.getTypeAllocSize (.array n (.int 8)) := by
  have hbyte : DL.getTypeStoreSize (.int 8) ≤ DL.getTypeAllocSize (.int 8) :=
    DataLayout.storeSize_le_allocSize (DataLayout.align_pos hDL (.int 8))
  have hone : DL.getTypeStoreSize (.int 8) = 1 := by
    simp only [DataLayout.getTypeStoreSize, DataLayout.getTypeSizeInBits, DataLayout.measure]
  rw [hone] at hbyte
  exact Nat.le_trans (Nat.le_mul_of_pos_right n hbyte) (DataLayout.allocSize_array hDL n (.int 8))

theorem holds_getString (hDL : DL.Positive) {bs : List UInt8}
    (h : HoldsImage m p ((Embed.getString bs).placedImage DL addr)) : m.Holds p (bs ++ [0]) := by
  have hlen := length_le_allocSize hDL (bs.length + 1)
  refine HoldsImage.stored (o := 0) h (fun s hs => ?_) (List.pairwise_singleton _ _)
    (List.mem_singleton_self _)
  obtain rfl := List.mem_singleton.1 hs
  simpa [Constant.placedBytes, Constant.symbolAddress, Constant.storedBytes, Constant.type,
    Embed.getString] using hlen

/-! ## A table -/

/-- The stores that a table of names and addresses is made of. -/
def tableStores : List (Ptr × Ptr) → ℕ → List (ℕ × List (Option UInt8))
  | [], o => [(o, (List.replicate 16 (0 : UInt8)).map some)]
  | e :: es, o => (o, (leBytes 8 e.1).map some) :: (o + 8, (leBytes 8 e.2).map some)
    :: tableStores es (o + 16)

theorem tableStores_bounds : ∀ (es : List (Ptr × Ptr)) (o : ℕ), ∀ s ∈ tableStores es o,
    o ≤ s.1 ∧ s.1 + s.2.length ≤ o + 16 * (es.length + 1)
  | [], o, s, hs => by
    obtain rfl := List.mem_singleton.1 hs
    simp
  | e :: es, o, s, hs => by
    have hlen (p : Ptr) : ((leBytes 8 p).map some).length = 8 := by
      rw [List.length_map, length_leBytes]
    rcases List.mem_cons.1 hs with rfl | hs
    · rw [hlen, List.length_cons]
      omega
    · rcases List.mem_cons.1 hs with rfl | hs
      · rw [hlen, List.length_cons]
        omega
      · have := tableStores_bounds es (o + 16) s hs
        rw [List.length_cons]
        omega

theorem tableStores_apart : ∀ (es : List (Ptr × Ptr)) (o : ℕ), Memory.Apart (tableStores es o)
  | [], _ => List.pairwise_singleton _ _
  | e :: es, o => by
    have hlen (p : Ptr) : ((leBytes 8 p).map some).length = 8 := by
      rw [List.length_map, length_leBytes]
    refine .cons (fun s hs => ?_) (.cons (fun s hs => ?_) (tableStores_apart es (o + 16)))
    · rw [hlen]
      rcases List.mem_cons.1 hs with rfl | hs
      · exact Nat.le_refl _
      · have := (tableStores_bounds es (o + 16) s hs).1
        show o + 8 ≤ s.1
        omega
    · rw [hlen]
      exact (tableStores_bounds es (o + 16) s hs).1

theorem mem_tableStores : ∀ (es : List (Ptr × Ptr)) (o : ℕ),
    (∀ i (hi : i < es.length), (o + 16 * i, (leBytes 8 es[i].1).map some) ∈ tableStores es o
      ∧ (o + 16 * i + 8, (leBytes 8 es[i].2).map some) ∈ tableStores es o)
    ∧ (o + 16 * es.length, (List.replicate 16 (0 : UInt8)).map some) ∈ tableStores es o
  | [], o => ⟨fun i hi => absurd hi (Nat.not_lt_zero i), List.mem_singleton_self _⟩
  | e :: es, o => by
    obtain ⟨hes, hend⟩ := mem_tableStores es (o + 16)
    have hoffset (i : ℕ) : o + 16 * (i + 1) = o + 16 + 16 * i := by omega
    refine ⟨fun i hi => ?_, ?_⟩
    · cases i with
      | zero => exact ⟨List.mem_cons_self, List.mem_cons_of_mem _ List.mem_cons_self⟩
      | succ i =>
        rw [hoffset]
        exact (hes i (Nat.lt_of_succ_lt_succ hi)).imp
          (fun h => List.mem_cons_of_mem _ (List.mem_cons_of_mem _ h))
          fun h => List.mem_cons_of_mem _ (List.mem_cons_of_mem _ h)
    · rw [List.length_cons, hoffset]
      exact List.mem_cons_of_mem _ (List.mem_cons_of_mem _ hend)

/-! ## The table that was added -/

variable {M : Embed.ModuleGraph ν} {added : List (Embed.AddedGlobal ν)}

theorem getElementOffsets_entry (hDL : DL.pointerSize = 8) :
    DL.getElementOffsets true [Embed.i8PtrTy, Embed.i8PtrTy] = [0, 8] := by
  simp [DataLayout.getElementOffsets, DataLayout.measureFields, DataLayout.measure,
    Embed.i8PtrTy, DataLayout.placeFields, DataLayout.allocBytes, DataLayout.alignTo, hDL]

theorem measure_entry (hDL : DL.pointerSize = 8) : DL.measure Embed.entryTy = (128, 1) := by
  simp [Embed.entryTy, DataLayout.measureFields, DataLayout.measure, DataLayout.structAlign,
    Embed.i8PtrTy, DataLayout.placeFields, DataLayout.allocBytes, DataLayout.alignTo, hDL]

theorem allocSize_entry (hDL : DL.pointerSize = 8) : DL.getTypeAllocSize Embed.entryTy = 16 := by
  rw [DataLayout.getTypeAllocSize, measure_entry hDL]
  rfl

theorem leaves_of_symbolAddress (DL : DataLayout) {c : Constant (Embed.HostSym ν)} {q : Ptr}
    (h : c.symbolAddress addr = some q) (o : ℕ) : c.leaves DL o = [(o, c)]
      ∧ c.placedBytes DL addr = (leBytes DL.pointerSize q).map some := by
  refine ⟨?_, by rw [Constant.placedBytes, h]⟩
  cases c with
  | global | pointerCast => rfl
  | _ => cases h

/-- An entry is stored as the two addresses. -/
theorem leaves_entry (hDL : DL.pointerSize = 8) {GV : ν} {c : Constant (Embed.HostSym ν)}
    (h : Embed.IsEntry M addr added GV c) : ∃ index,
      Embed.AddedString added (Embed.utf8 (M.getName GV)) index ∧ ∀ o,
        (c.leaves DL o).map (fun l => (l.1, l.2.placedBytes DL addr))
          = [(o, (leBytes 8 (addr (.added index))).map some),
            (o + 8, (leBytes 8 (addr (.value GV))).map some)] := by
  obtain ⟨index, Name, Address, hname, rfl, hName, hAddress⟩ := h
  refine ⟨index, hname, fun o => ?_⟩
  obtain ⟨hleaf, hbytes⟩ := leaves_of_symbolAddress DL hName o
  obtain ⟨hleaf', hbytes'⟩ := leaves_of_symbolAddress DL hAddress (o + 8)
  rw [Embed.entryTy, Constant.leaves, getElementOffsets_entry hDL]
  simp only [Constant.elementLeaves, Nat.add_zero, hleaf, hleaf', List.append_nil,
    List.singleton_append, List.map_cons, List.map_nil, hbytes, hbytes', hDL]

/-- The addresses in an entry: that of its name, and that of its variable. -/
def IsEntryAddress (M : Embed.ModuleGraph ν) (addr : Embed.HostSym ν → Ptr)
    (added : List (Embed.AddedGlobal ν)) (GV : ν) (e : Ptr × Ptr) : Prop :=
  ∃ index, Embed.AddedString added (Embed.utf8 (M.getName GV)) index ∧ e.1 = addr (.added index)
    ∧ e.2 = addr (.value GV)

theorem leaves_null (o : ℕ) (hDL : DL.pointerSize = 8) :
    ((Constant.null Embed.entryTy : Constant (Embed.HostSym ν)).leaves DL o).map
        (fun l => (l.1, l.2.placedBytes DL addr))
      = [(o, (List.replicate 16 (0 : UInt8)).map some)] := by
  have hsize : DL.getTypeStoreSize Embed.entryTy = 16 := by
    simp only [DataLayout.getTypeStoreSize, DataLayout.getTypeSizeInBits, measure_entry hDL]
  simp only [Constant.leaves, List.map_cons, List.map_nil, Constant.placedBytes,
    Constant.symbolAddress, Constant.storedBytes, hsize, List.map_replicate]

theorem elementLeaves_entries (hDL : DL.pointerSize = 8) {Globals : List ν}
    {Entries : List (Constant (Embed.HostSym ν))}
    (h : List.Forall₂ (Embed.IsEntry M addr added) Globals Entries) : ∃ es,
      List.Forall₂ (IsEntryAddress M addr added) Globals es ∧ ∀ k,
        (Constant.elementLeaves DL (Entries ++ [.null Embed.entryTy])
          ((List.range' k (Entries.length + 1)).map (· * 16)) 0).map
            (fun l => (l.1, l.2.placedBytes DL addr)) = tableStores es (16 * k) := by
  induction h with
  | nil =>
    refine ⟨[], .nil, fun k => ?_⟩
    rw [List.nil_append, List.length_nil, Nat.zero_add, List.range'_one, List.map_singleton,
      Constant.elementLeaves, Constant.elementLeaves, List.append_nil, leaves_null _ hDL,
      Nat.zero_add, Nat.mul_comm]
    · rfl
    · simp
  | cons hentry _ ih =>
    obtain ⟨index, hname, hleaves⟩ := leaves_entry hDL hentry
    obtain ⟨es, hes, ih⟩ := ih
    refine ⟨(_, _) :: es, .cons ⟨index, hname, rfl, rfl⟩ hes, fun k => ?_⟩
    rw [List.length_cons, List.range'_succ, List.map_cons, List.cons_append,
      Constant.elementLeaves, List.map_append, hleaves, ih (k + 1), Nat.zero_add, Nat.mul_comm k]
    rfl

/-- The memory that the table takes up is made of its entries, and of the one that ends it. -/
theorem holds_table (hDL : DL.Positive) (hptr : DL.pointerSize = 8) {Globals : List ν}
    {Entries : List (Constant (Embed.HostSym ν))}
    (h : List.Forall₂ (Embed.IsEntry M addr added) Globals Entries)
    (himage : HoldsImage m p (Constant.placedImage DL addr
      (.array (.array (Entries.length + 1) Embed.entryTy) (Entries ++ [.null Embed.entryTy])))) :
    ∃ es, List.Forall₂ (IsEntryAddress M addr added) Globals es
      ∧ (∀ i (hi : i < es.length), m.Holds (p + 16 * i) (leBytes 8 es[i].1)
        ∧ m.Holds (p + 16 * i + 8) (leBytes 8 es[i].2))
      ∧ m.Holds (p + 16 * es.length) (List.replicate 16 0) := by
  obtain ⟨es, hes, hleaves⟩ := elementLeaves_entries hptr h
  have hlen : Entries.length = es.length := h.length_eq.symm.trans hes.length_eq
  have hsize : 16 * (es.length + 1)
      ≤ DL.getTypeAllocSize (.array (Entries.length + 1) Embed.entryTy) := by
    have := DataLayout.allocSize_array hDL (Entries.length + 1) Embed.entryTy
    rw [allocSize_entry hptr] at this
    omega
  have hstores : (Constant.leaves DL (.array (.array (Entries.length + 1) Embed.entryTy)
      (Entries ++ [.null Embed.entryTy])) 0).map (fun l => (l.1, l.2.placedBytes DL addr))
        = tableStores es 0 := by
    rw [Constant.leaves, allocSize_entry hptr, List.range_eq_range']
    exact hleaves 0
  rw [Constant.placedImage, hstores] at himage
  have hinside : ∀ s ∈ tableStores es 0, s.1 + s.2.length
      ≤ DL.getTypeAllocSize (.array (Entries.length + 1) Embed.entryTy) := by
    intro s hs
    have := (tableStores_bounds es 0 s hs).2
    omega
  have hread {o : ℕ} {bs : List UInt8} (hs : (o, bs.map some) ∈ tableStores es 0) :
      m.Holds (p + o) bs := himage.stored hinside (tableStores_apart es 0) hs
  obtain ⟨hmem, hend⟩ := mem_tableStores es 0
  simp only [Nat.zero_add] at hmem hend
  exact ⟨es, hes, fun i hi => ⟨hread (hmem i hi).1, hread (hmem i hi).2⟩, hread hend⟩

/-! ## What is read -/

theorem readPtr_eq {q : Ptr} (h : m.Holds p (leBytes 8 q)) (hq : q < 2 ^ 64) :
    Raw.readPtr m p = some q := by
  have hread := h.readBytes
  rw [length_leBytes] at hread
  rw [Raw.readPtr, hread, Option.map_some, leNat_leBytes hq]

/-- The names and the addresses of the local variables are read back from the table. -/
theorem mapGlobals_table {es : List (Ptr × Ptr)} {as : List (List UInt8 × Ptr)}
    (hentries : ∀ i (hi : i < es.length), m.Holds (p + 16 * i) (leBytes 8 es[i].1)
      ∧ m.Holds (p + 16 * i + 8) (leBytes 8 es[i].2))
    (hend : m.Holds (p + 16 * es.length) (List.replicate 16 0)) (hlen : es.length < 2 ^ 64)
    (has : List.Forall₂ (fun e a => 0 < e.1 ∧ e.1 < 2 ^ 64 ∧ e.2 < 2 ^ 64
      ∧ m.readCString e.1 = some a.1 ∧ a.2 = e.2) es as) : Raw.mapGlobals m p = some as := by
  refine readTerminated_eq (has.length_eq ▸ hlen) (fun i hi => ?_) ?_
  · have hi' : i < es.length := has.length_eq.symm ▸ hi
    have ha := has.get hi' hi
    simp only [List.get_eq_getElem] at ha
    obtain ⟨hpos, hname, haddress, hstring, heq⟩ := ha
    obtain ⟨h₁, h₂⟩ := hentries i hi'
    rw [Raw.globalMapping, readPtr_eq h₁ hname, readPtr_eq h₂ haddress, Option.bind_eq_bind,
      Option.bind_some, if_neg (Nat.pos_iff_ne_zero.1 hpos)]
    simp only [Option.bind_eq_bind, Option.bind_some, hstring, ← heq]
  · have hzero : m.Holds (p + 16 * as.length) (leBytes 8 0) := by
      rw [← has.length_eq]
      have happend : List.replicate 16 (0 : UInt8) = leBytes 8 0 ++ List.replicate 8 0 := rfl
      exact (ByteMemory.Holds.append.1 (happend ▸ hend)).1
    rw [Raw.globalMapping, readPtr_eq hzero (by decide), Option.bind_eq_bind, Option.bind_some,
      if_pos rfl]

end Memory

/-! ## The tracker -/

section Tracker

variable {m m' : ByteMemory} {T : Raw.BitcodeTracker}
  {T' : EasyJit.BitcodeTracker (List UInt8)}

/-- The pointers are to what is registered. -/
structure Raw.FunctionInfo.Represents (m : ByteMemory) (raw : Raw.FunctionInfo)
    (info : FunctionRegistration (List UInt8)) : Prop where
  name : m.readCString raw.name = some (Embed.utf8 info.name)
  globals : Raw.mapGlobals m raw.globals = some (info.globals.map fun e => (Embed.utf8 e.1, e.2))
  bitcode : m.Holds raw.bitcode (info.bitcode ++ [0])
  bitcodeLen : raw.bitcodeLen = info.bitcode.length

/-- The tables have the same entries, one with pointers and one with what they are to. -/
structure Raw.BitcodeTracker.Represents (m : ByteMemory) (T : Raw.BitcodeTracker)
    (T' : EasyJit.BitcodeTracker (List UInt8)) : Prop where
  functions : T.functions.Related Eq (Raw.FunctionInfo.Represents m) T'.functions
  nameToAddress : T.nameToAddress.Related (fun bs name => bs = Embed.utf8 name) Eq T'.nameToAddress

theorem beq_utf8 (name : String) : ∀ bs n, bs = Embed.utf8 n →
    (bs == Embed.utf8 name) = (n == name) := by
  rintro _ n rfl
  rw [Bool.eq_iff_iff, beq_iff_eq, beq_iff_eq, Embed.utf8_injective.eq_iff]

/-- A call to `easy_register` in one memory, with pointers to what is in another. -/
theorem Raw.BitcodeTracker.Represents.registerFunction (h : T.Represents m' T') {c : Raw.Call}
    {fptr : Ptr} {info : FunctionRegistration (List UInt8)} (hfptr : c.fptr = fptr)
    (hname : m.readCString c.name = some (Embed.utf8 info.name))
    (hc : c.toFunctionInfo.Represents m' info) : ∃ T₁,
      T.registerFunction m c = .ok T₁ ∧ T₁.Represents m' (T'.registerFunction fptr info) := by
  subst hfptr
  refine ⟨_, by rw [Raw.BitcodeTracker.registerFunction, hname]; rfl, ?_, ?_⟩
  · exact h.functions.emplace (fun _ _ heq => by rw [heq]) rfl hc
  · exact h.nameToAddress.emplace (beq_utf8 _) rfl rfl

theorem startup_represents {cs : List Raw.Call}
    {regs : List (Ptr × FunctionRegistration (List UInt8))}
    (h : List.Forall₂ (fun c r => c.fptr = r.1
      ∧ m.readCString c.name = some (Embed.utf8 r.2.name)
      ∧ c.toFunctionInfo.Represents m' r.2) cs regs) : ∃ T,
      Raw.startup m cs = .ok T ∧ T.Represents m' (BitcodeTracker.registerEach regs) := by
  have hrun : ∀ T T', T.Represents m' T' → ∃ T₁,
      cs.foldlM (Raw.BitcodeTracker.registerFunction m) T = .ok T₁ ∧ T₁.Represents m'
        (regs.foldl (fun T r => T.registerFunction r.1 r.2) T') := by
    induction h with
    | nil => exact fun T T' hT => ⟨T, rfl, hT⟩
    | cons hc _ ih =>
      intro T T' hT
      obtain ⟨hfptr, hname, hc⟩ := hc
      obtain ⟨T₁, hstep, hT₁⟩ := hT.registerFunction hfptr hname hc
      obtain ⟨T₂, hrest, hT₂⟩ := ih T₁ _ hT₁
      exact ⟨T₂, by rw [List.foldlM_cons, Except.bind_eq_ok]; exact ⟨T₁, hstep, hrest⟩, hT₂⟩
  exact hrun .empty .empty ⟨.nil, .nil⟩

variable {δ : Type} [BitcodeFormat (List UInt8) δ]

theorem Raw.FunctionInfo.Represents.load_bitcode {raw : Raw.FunctionInfo}
    {info : FunctionRegistration (List UInt8)} (h : raw.Represents m info) :
    m.readBytes raw.bitcodeLen raw.bitcode = some info.bitcode
      ∧ m (raw.bitcode + raw.bitcodeLen) = some 0 := by
  obtain ⟨hbytes, hend⟩ := ByteMemory.Holds.append.1 h.bitcode
  rw [h.bitcodeLen]
  exact ⟨hbytes.readBytes, hend 0 Nat.one_pos⟩

/-- The zero that `getMemBuffer` asserts is there, and the bytes are those that were written. -/
theorem Raw.BitcodeTracker.Represents.refines (h : T.Represents m T') :
    T.Refines (δ := δ) m T' := by
  have hlookup (fptr : Ptr) : Option.Rel (Raw.FunctionInfo.Represents m) (T.functions.lookup fptr)
      (T'.functions.lookup fptr) := h.functions.lookup fun _ _ heq => by rw [heq]
  refine ⟨fun fptr => ?_, fun name => ?_, fun fptr e he => ?_, fun fptr name globals hok => ?_,
    fun fptr => ?_⟩
  · have hrel := hlookup fptr
    unfold Raw.BitcodeTracker.hasGlobalMapping EasyJit.BitcodeTracker.hasGlobalMapping
    generalize T.functions.lookup fptr = raw at hrel
    generalize T'.functions.lookup fptr = info at hrel
    cases hrel <;> rfl
  · have hrel := h.nameToAddress.lookup (beq_utf8 name)
    unfold Raw.BitcodeTracker.getAddress EasyJit.BitcodeTracker.getAddress
    generalize T.nameToAddress.lookup (Embed.utf8 name) = raw at hrel
    generalize T'.nameToAddress.lookup name = info at hrel
    cases hrel with
    | none => rfl
    | some heq => rw [heq]
  · have hrel := hlookup fptr
    unfold EasyJit.BitcodeTracker.getNameAndGlobalMapping at he
    unfold Raw.BitcodeTracker.getNameAndGlobalMapping
    generalize T.functions.lookup fptr = raw at hrel
    generalize T'.functions.lookup fptr = info at hrel he
    cases hrel with
    | none =>
      cases he
      rfl
    | some => cases he
  · have hrel := hlookup fptr
    unfold EasyJit.BitcodeTracker.getNameAndGlobalMapping at hok
    unfold Raw.BitcodeTracker.getNameAndGlobalMapping
    generalize T.functions.lookup fptr = raw at hrel
    generalize T'.functions.lookup fptr = info at hrel hok
    cases hrel with
    | none => cases hok
    | some hinfo =>
      cases hok
      exact ⟨_, _, rfl, hinfo.name, hinfo.globals⟩
  · have hrel := hlookup fptr
    unfold Raw.BitcodeTracker.getModule EasyJit.BitcodeTracker.getModule
    generalize T.functions.lookup fptr = raw at hrel
    generalize T'.functions.lookup fptr = info at hrel
    cases hrel with
    | none => rfl
    | @some raw info hinfo =>
      obtain ⟨hbytes, hend⟩ := hinfo.load_bitcode
      cases hparse : BitcodeFormat.parse (δ := δ) info.bitcode <;>
        simp [hbytes, hend, hinfo.name, hparse, Raw.load, Embed.nameOfBytes_utf8, bind, Except.bind]

end Tracker

/-! ## A unit -/

theorem exists_between {α β γ : Type} {P : α → γ → Prop} {Q : β → γ → Prop} {as : List α}
    {bs : List β} (h : List.Forall₂ (fun a b => ∃ c, P a c ∧ Q b c) as bs) :
    ∃ cs, List.Forall₂ P as cs ∧ List.Forall₂ Q bs cs := by
  induction h with
  | nil => exact ⟨[], .nil, .nil⟩
  | cons hab _ ih =>
    obtain ⟨c, hP, hQ⟩ := hab
    obtain ⟨cs, hPs, hQs⟩ := ih
    exact ⟨c :: cs, .cons hP hPs, .cons hQ hQs⟩

namespace Embed

section Unit

variable {ν δ : Type} {DL : DataLayout} {addr : HostSym ν → ℕ} {m m' : ByteMemory}
  {R : RegisteredModule ν}

/-- A string that was added is in memory, at an address. -/
theorem RegisteredModule.Placed.string (h : R.Placed DL addr m) (hDL : DL.Positive)
    {bs : List UInt8} {index : ℕ} (hs : AddedString R.added bs index) :
    m.Holds (addr (.added index)) (bs ++ [0]) ∧ 0 < addr (.added index)
      ∧ addr (.added index) + bs.length < 2 ^ 64 := by
  obtain ⟨g, hg, rfl, hinit⟩ := hs
  obtain ⟨hpos, hfits⟩ := h.fits g hg
  have himage := h.image g hg
  rw [hinit] at himage hfits
  have hlen := length_le_allocSize hDL (bs.length + 1)
  have htype : (getString bs : Constant (HostSym ν)).type = .array (bs.length + 1) (.int 8) := by
    simp only [getString, Constant.type]
  rw [htype] at hfits
  exact ⟨holds_getString hDL himage, hpos, by omega⟩

theorem RegisteredModule.Placed.readCString (h : R.Placed DL addr m) (hDL : DL.Positive)
    {name : String} (hname : IsCString name) {index : ℕ}
    (hs : AddedString R.added (utf8 name) index) :
    m.readCString (addr (.added index)) = some (utf8 name) := by
  obtain ⟨hholds, -, hlt⟩ := h.string hDL hs
  exact ByteMemory.readCString_eq (zero_not_mem_utf8 hname) hholds (by omega)

/-- The table that was added is read back. -/
theorem RegisteredModule.Placed.table (h : R.Placed DL addr m) (hDL : DL.Positive)
    (hptr : DL.pointerSize = 8) {Globals : List ν} {index : ℕ}
    (hs : AddedTable R.graph addr R.added Globals index)
    (hGlobals : ∀ GV ∈ Globals, IsCString (R.graph.getName GV) ∧ addr (.value GV) < 2 ^ 64) :
    Raw.mapGlobals m (addr (.added index))
      = some (Globals.map fun GV => (utf8 (R.graph.getName GV), addr (.value GV))) := by
  obtain ⟨g, hg, Entries, rfl, hinit, hentries⟩ := hs
  obtain ⟨-, hfits⟩ := h.fits g hg
  have himage := h.image g hg
  rw [hinit] at himage hfits
  obtain ⟨es, hes, hread, hend⟩ := holds_table hDL hptr hentries himage
  have hlen : es.length < 2 ^ 64 := by
    have hsize := DataLayout.allocSize_array hDL (Entries.length + 1) entryTy
    rw [allocSize_entry hptr] at hsize
    simp only [Constant.type] at hfits
    have := hentries.length_eq.symm.trans hes.length_eq
    omega
  refine mapGlobals_table hread hend hlen ?_
  rw [List.forall₂_map_right_iff]
  refine ((List.forall₂_and_left _ _).2 ⟨hGlobals, hes⟩).flip.imp fun e GV hGV => ?_
  obtain ⟨⟨hname, haddress⟩, name, hstring, hfirst, hsecond⟩ := hGV
  obtain ⟨-, hpos, hlt⟩ := h.string hDL hstring
  rw [hfirst, hsecond]
  exact ⟨hpos, Nat.lt_of_le_of_lt (Nat.le_add_right _ _) hlt, haddress,
    h.readCString hDL hname hstring, rfl⟩

end Unit

namespace TranslationUnit

variable {δ : Type} {U : TranslationUnit δ} {DL : DataLayout} {m m' : ByteMemory}
  {E : EasyExport}

theorem renamed_named (U : TranslationUnit δ) : Renamed U.graph U.named :=
  nameGlobals_renamed _ _ _

theorem WellFormed.wellNamed (h : U.WellFormed) : U.named.WellNamed :=
  h.names.nameGlobals (by decide) _

theorem isCString_getName (h : U.WellFormed) (V : U.Value) : IsCString (U.named.getName V) := by
  cases hV : (U.named.kind V).data? with
  | none =>
    rw [ModuleGraph.getName, hV]
    decide
  | some data =>
    rw [getName_of_data? hV]
    exact h.wellNamed.cString V data hV

/-- A local variable is defined. -/
theorem isDeclaration_of_local (h : U.WellFormed) {GV : U.Value}
    (hGV : GV ∈ collectLocalGlobals U.graph) : (∃ data, (U.named.kind GV).data? = some data)
      ∧ (U.named.kind GV).isDeclaration = false := by
  have hlocal := (List.mem_filter.1 hGV).2
  rw [(renamed_named U).isDeclaration GV]
  have hdata : ∃ data, (U.graph.kind GV).data? = some data ∧ data.linkage.isLocal = true := by
    cases hkind : U.graph.kind GV <;> rw [hkind] at hlocal
    case globalVariable data init => exact ⟨data, rfl, hlocal⟩
    all_goals cases hlocal
  obtain ⟨data, hdata, hlinkage⟩ := hdata
  refine ⟨?_, h.local_defined GV data hdata hlinkage⟩
  rcases (renamed_named U).kind GV with hkind | ⟨-, name, hkind⟩ <;> rw [hkind]
  · exact ⟨data, hdata⟩
  · exact ⟨_, by rw [data?_setName, hdata]; rfl⟩

variable [BitcodeFormat (List UInt8) δ]

/-- The call for an object gives the tracker what is to be registered for it. -/
theorem call_represents (hDL : DL.Positive) (hptr : DL.pointerSize = 8) (hU : U.WellFormed)
    {R : RegisteredModule U.Value} (hgraph : R.graph = U.named) (hm : R.Placed DL U.addr m)
    (hm' : R.Placed DL U.addr m') {X : U.Value} {c : RegisterCall U.Value}
    (h : Registers U.reading R.graph U.passes U.addr R.added (collectLocalGlobals U.graph) X c) :
    ∃ r, U.registration X = .ok r ∧ (c.evaluate U.addr).fptr = r.1
      ∧ m.readCString (c.evaluate U.addr).name = some (utf8 r.2.name)
      ∧ (c.evaluate U.addr).toFunctionInfo.Represents m' r.2 := by
  obtain ⟨Embed, name, table, bitcode, hclean, hname, htable, hbitcode, hc⟩ := h
  have hX : IsCString (R.graph.getName X) := hgraph ▸ isCString_getName hU X
  obtain ⟨hbytes, -, hlt⟩ := hm'.string hDL hbitcode
  refine ⟨_, by rw [registration, ← hgraph, hclean]; rfl, ?_, ?_, ?_, ?_, ?_, ?_⟩
  · rw [hc]
  · rw [hc]
    exact hm.readCString hDL hX hname
  · rw [hc]
    exact hm'.readCString hDL hX hname
  · rw [hc]
    have hlocals := hm'.table hDL hptr htable fun GV hGV => by
      obtain ⟨⟨data, hdata⟩, hdef⟩ := isDeclaration_of_local hU hGV
      rw [← hgraph] at hdata hdef
      exact ⟨hgraph ▸ isCString_getName hU GV, (hm'.value GV data hdata hdef).2⟩
    rw [hlocals, List.map_map]
    rfl
  · rw [hc]
    exact hbytes
  · rw [hc]
    show (BitVec.ofNat 64 _).toNat = _
    rw [BitVec.toNat_ofNat, Nat.mod_eq_of_lt (by omega)]

/-- Nothing is added to a module without objects. -/
theorem objects_of_runOnModule_none (h : U.runOnModule E = .ok none) : U.objectsToJIT E = [] := by
  unfold runOnModule runOnObjects at h
  split at h
  · rename_i hempty
    exact List.isEmpty_iff.1 hempty
  · obtain ⟨_, -, h⟩ := Except.bind_eq_ok.1 h
    cases h

theorem calls_represent (hDL : DL.Positive) (hptr : DL.pointerSize = 8) (hU : U.WellFormed)
    (hm : ∀ R, U.runOnModule E = .ok (some R) → R.Placed DL U.addr m)
    (hm' : ∀ R, U.runOnModule E = .ok (some R) → R.Placed DL U.addr m') {cs : List Raw.Call}
    (h : U.calls E = .ok cs) : ∃ rs, U.registrations E = .ok rs
      ∧ List.Forall₂ (fun c r => c.fptr = r.1 ∧ m.readCString c.name = some (utf8 r.2.name)
        ∧ c.toFunctionInfo.Represents m' r.2) cs rs := by
  obtain ⟨R, hR, h⟩ := Except.bind_eq_ok.1 h
  cases R with
  | none =>
    cases h
    refine ⟨[], ?_, .nil⟩
    rw [registrations, objects_of_runOnModule_none hR]
    rfl
  | some R =>
    cases h
    obtain ⟨hgraph, hcalls⟩ := runOnObjects_spec hU.names U.addr hR
    have hregs := hcalls.imp fun X c hc =>
      call_represents hDL hptr hU hgraph (hm R hR) (hm' R hR) hc
    obtain ⟨rs, hrs, hrep⟩ := exists_between hregs
    exact ⟨rs, Except.mapM_eq_ok.2 hrs, List.forall₂_map_left_iff.2 hrep⟩

end TranslationUnit

/-! ## The program -/

section Program

variable {δ : Type} [BitcodeFormat (List UInt8) δ] {DL : DataLayout} {m m' : ByteMemory}
  {E : EasyExport}

theorem Loaded.tail {U : TranslationUnit δ} {units : List (TranslationUnit δ)}
    (h : Loaded E DL (U :: units) m) : Loaded E DL units m where
  wellFormed V hV := h.wellFormed V (List.mem_cons_of_mem _ hV)
  placed V hV := h.placed V (List.mem_cons_of_mem _ hV)

theorem programCalls_represent (hDL : DL.Positive) (hptr : DL.pointerSize = 8) :
    ∀ {units : List (TranslationUnit δ)} {cs : List Raw.Call}, Loaded E DL units m →
    Loaded E DL units m' → programCalls E units = .ok cs → ∃ rs,
      programRegistrations E units = .ok rs
        ∧ List.Forall₂ (fun c r => c.fptr = r.1 ∧ m.readCString c.name = some (utf8 r.2.name)
          ∧ c.toFunctionInfo.Represents m' r.2) cs rs
  | [], cs, _, _, h => by
    cases h
    exact ⟨[], rfl, .nil⟩
  | U :: units, cs, hm, hm', h => by
    obtain ⟨cs₁, hcs₁, h⟩ := Except.bind_eq_ok.1 h
    obtain ⟨cs₂, hcs₂, h⟩ := Except.bind_eq_ok.1 h
    cases h
    obtain ⟨rs₁, hrs₁, hrep₁⟩ := U.calls_represent hDL hptr (hm.wellFormed U List.mem_cons_self)
      (hm.placed U List.mem_cons_self) (hm'.placed U List.mem_cons_self) hcs₁
    obtain ⟨rs₂, hrs₂, hrep₂⟩ := programCalls_represent hDL hptr hm.tail hm'.tail hcs₂
    refine ⟨rs₁ ++ rs₂, ?_, List.rel_append hrep₁ hrep₂⟩
    rw [programRegistrations, hrs₁, hrs₂]
    rfl

/-- When the static initialisers of a program have run, and as long as what the pass added is in
memory, the tracker finds what is to be registered for the units: for an address the name, the
table and the module, for a name the address, and nothing else. -/
theorem startup_refines (hDL : DL.Positive) (hptr : DL.pointerSize = 8)
    {units : List (TranslationUnit δ)} {cs : List Raw.Call} (hm : Loaded E DL units m)
    (hm' : Loaded E DL units m') (h : programCalls E units = .ok cs) :
    ∃ rs T, programRegistrations E units = .ok rs ∧ Raw.startup m cs = .ok T
      ∧ T.Refines (δ := δ) m' (BitcodeTracker.registerEach rs) := by
  obtain ⟨rs, hrs, hrep⟩ := programCalls_represent hDL hptr hm hm' h
  obtain ⟨T, hT, hrep⟩ := startup_represents hrep
  exact ⟨rs, T, hrs, hT, hrep.refines⟩

end Program

section Samples

/-- The memory that holds some blocks. -/
def memoryOf (blocks : List (ℕ × List (Option UInt8))) : ByteMemory := fun q =>
  match blocks.find? fun b => b.1 ≤ q ∧ q < b.1 + b.2.length with
  | some b => (b.2[q - b.1]?).join
  | none => none

theorem holdsImage_memoryOf {blocks : List (ℕ × List (Option UInt8))}
    (hapart : blocks.Pairwise fun b b' => b.1 + b.2.length ≤ b'.1) {b : ℕ × List (Option UInt8)}
    (hb : b ∈ blocks) : HoldsImage (memoryOf blocks) b.1 b.2 := by
  intro i x hx
  have hi : i < b.2.length := (List.getElem?_eq_some_iff.1 hx).1
  have hfind : blocks.find? (fun b' => decide (b'.1 ≤ b.1 + i ∧ b.1 + i < b'.1 + b'.2.length))
      = some b := by
    induction blocks with
    | nil => cases hb
    | cons b₀ blocks ih =>
      obtain ⟨hfirst, hrest⟩ := List.pairwise_cons.1 hapart
      rcases List.mem_cons.1 hb with rfl | hb
      · exact List.find?_cons_of_pos (by simpa using hi)
      · have := hfirst b hb
        rw [List.find?_cons_of_neg (by simp; omega)]
        exact ih hrest hb
  have hjoin : (b.2[b.1 + i - b.1]?).join = some x := by
    rw [Nat.add_sub_cancel_left, hx]
    rfl
  rw [memoryOf, hfind]
  exact hjoin

def hostStatic : HostModule StaticValue where
  values := readsStatic.nodes
  mem_values := readsStatic.mem_nodes
  kind
    | .main | .helper => .function false
    | .counter => .globalVariable false (some .zero)
    | .call => .call .helper []
    | .load => .other [.cast]
    | .cast => .constantExpr .other .counter []
    | .zero => .constant []
  users
    | .helper => [.call]
    | .counter => [.cast]
    | .cast => [.load]
    | .zero => [.counter]
    | _ => []
  mem_users := by decide
  constant_operands := by decide
  getName
    | .main => "main"
    | .helper => "helper"
    | .counter => "counter"
    | _ => ""
  getSection X := if X = .main then JIT_SECTION else ""
  stripPointerCasts := id

theorem sameModule_static : SameModule hostStatic readsStatic := by
  constructor
  · have : ∀ V, ∀ data ∈ (readsStatic.kind V).data?, hostStatic.getName V = data.name := by decide
    exact this
  · decide
  · have : ∀ V, (hostStatic.kind V).isGlobalVariable = true ↔ V = .counter := by decide
    intro V
    rw [this]
    constructor
    · rintro rfl
      exact ⟨_, _, rfl⟩
    · rintro ⟨data, initializer, h⟩
      cases V with
      | counter => rfl
      | _ => cases h
  · decide

def unitStatic : TranslationUnit Unit where
  Value := StaticValue
  decEq := inferInstance
  host := hostStatic
  graph := readsStatic
  same := sameModule_static
  reading := plainReading
  passes := extractOnly
  addr
    | .value X => 0x1000 * (X.ctorIdx + 1)
    | .added index => 0x10000 + 0x100 * index

def annotatedOnly : EasyExport := ⟨"", fun _ _ => false⟩

theorem objectsToJIT_static : unitStatic.objectsToJIT annotatedOnly = [StaticValue.main] := by
  show (collectObjectsToJIT hostStatic annotatedOnly).2 = [StaticValue.main]
  decide

/-- The embedded module of `main`. -/
def embeddedMain : LModule Unit :=
  match cleanModule readsStatic extractOnly .main with
  | .ok Embed => Embed.toModule plainReading
  | .error _ => .empty

theorem wellFormed_static : unitStatic.WellFormed where
  names := {
    cString := by
      have h : ∀ X : StaticValue, ∀ data ∈ (readsStatic.kind X).data?, IsCString data.name := by
        decide
      exact h
    unique := fun X Y data data' hX hY heq _ => readsStatic_namesUnique X Y data data' hX hY heq }
  local_defined := by
    have h : ∀ X : StaticValue, ∀ data ∈ (readsStatic.kind X).data?, data.linkage.isLocal = true →
        (readsStatic.kind X).isDeclaration = false := by decide
    exact h

section

variable [F : BitcodeFormat (List UInt8) Unit]

/-- What the pass adds to the unit. -/
def addedStatic : List (AddedGlobal StaticValue) :=
  [⟨0, "main_bitcode", getString (F.write embeddedMain)⟩,
    ⟨1, "counter_name", getString (utf8 "counter")⟩,
    ⟨2, "global_mapping", .array (.array 2 entryTy) [.struct entryTy
      [.pointerCast (.global (.added 1) (.ptr (.array 8 (.int 8)))) i8PtrTy,
        .pointerCast (.global (.value .counter) (.ptr .void)) i8PtrTy], .null entryTy]⟩,
    ⟨3, "main_name", getString (utf8 "main")⟩]

theorem runOnModule_static : ∃ ctor, unitStatic.runOnModule annotatedOnly
    = .ok (some ⟨readsStatic, addedStatic, ctor⟩) := by
  rw [TranslationUnit.runOnModule, objectsToJIT_static]
  exact ⟨_, rfl⟩

/-- The constants, one after the other. -/
def blocksStatic : List (ℕ × List (Option UInt8)) :=
  addedStatic.map fun g =>
    (unitStatic.addr (.added g.index), g.init.placedImage DataLayout.x86_64 unitStatic.addr)

theorem blocksStatic_places (hF : F.write embeddedMain = [0x42, 0x43]) :
    blocksStatic.map (fun b => (b.1, b.2.length))
        = [(0x10000, 3), (0x10100, 8), (0x10200, 32), (0x10300, 5)]
      ∧ ∀ g ∈ addedStatic, 0 < unitStatic.addr (.added g.index) ∧ unitStatic.addr (.added g.index)
          + DataLayout.x86_64.getTypeAllocSize g.init.type ≤ 2 ^ 64 := by
  rw [blocksStatic, addedStatic, hF]
  decide

theorem apart_static (hF : F.write embeddedMain = [0x42, 0x43]) :
    blocksStatic.Pairwise fun b b' => b.1 + b.2.length ≤ b'.1 := by
  have h : (blocksStatic.map fun b => (b.1, b.2.length)).Pairwise fun b b' => b.1 + b.2 ≤ b'.1 := by
    rw [(blocksStatic_places hF).1]
    decide
  exact List.pairwise_map.1 h

theorem placed_static (hF : F.write embeddedMain = [0x42, 0x43]) {m : ByteMemory}
    (hm : ∀ b ∈ blocksStatic, HoldsImage m b.1 b.2) {R : RegisteredModule StaticValue}
    (hR : unitStatic.runOnModule annotatedOnly = .ok (some R)) :
    R.Placed DataLayout.x86_64 unitStatic.addr m := by
  obtain ⟨ctor, hR'⟩ := runOnModule_static
  rw [hR] at hR'
  cases hR'
  constructor
  · exact fun g hg => hm _ (List.mem_map_of_mem hg)
  · exact (blocksStatic_places hF).2
  · intro X data hX _
    have haddr : ∀ X : StaticValue,
        0 < 0x1000 * (X.ctorIdx + 1) ∧ 0x1000 * (X.ctorIdx + 1) < 2 ^ 64 := by decide
    exact haddr X

theorem loaded_static (hF : F.write embeddedMain = [0x42, 0x43]) :
    Loaded annotatedOnly DataLayout.x86_64 [unitStatic] (memoryOf blocksStatic) where
  wellFormed U hU := List.mem_singleton.1 hU ▸ wellFormed_static
  placed U hU R hR := by
    obtain rfl := List.mem_singleton.1 hU
    exact placed_static hF (fun b hb => holdsImage_memoryOf (apart_static hF) hb) hR

theorem programCalls_static : ∃ cs, programCalls annotatedOnly [unitStatic] = .ok cs := by
  obtain ⟨ctor, hR⟩ := runOnModule_static
  exact ⟨_, by rw [programCalls, TranslationUnit.calls, hR]; rfl⟩

end

theorem startup_refines_static : ∃ (_ : BitcodeFormat (List UInt8) Unit) (m : ByteMemory)
    (cs : List Raw.Call) (rs : _) (T : _), programCalls annotatedOnly [unitStatic] = .ok cs
      ∧ programRegistrations annotatedOnly [unitStatic] = .ok rs ∧ Raw.startup m cs = .ok T
      ∧ T.Refines (δ := Unit) m (BitcodeTracker.registerEach rs) := by
  obtain ⟨F, hF⟩ := exists_bitcodeFormat_single embeddedMain [0x42, 0x43]
  obtain ⟨cs, hcs⟩ := programCalls_static
  obtain ⟨rs, T, hrs, hT, h⟩ := startup_refines DataLayout.x86_64_positive rfl (loaded_static hF)
    (loaded_static hF) hcs
  exact ⟨F, _, cs, rs, T, hcs, hrs, hT, h⟩

end Samples

end Embed

end EasyJit
