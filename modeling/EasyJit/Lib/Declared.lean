import EasyJit.Lib.Binding

/-!
# Names that a linked module only declares

A reference whose name has no definition stays such a reference as long as no source defines the
name or is linked in for it (`Binding.declared?_afterAll`). What a defined name reaches in the end
is the last definition of it (`lastDefinition`). None of this looks at what the instructions do
(`SameRefs`).
-/

namespace Linker

variable {ν δ ο ι μ σ : Type*} [DecidableEq ν]

/-! ## Declared names -/

/-- The name of a reference that reaches no definition. -/
def Binding.declared? : Binding ν σ → Option ν
  | named n none => some n
  | _ => none

/-- A name is defined after the sources, if it was before them or not. -/
def definedAfter (n : ν) : Bool → List (Source ν δ ο ι μ) → Bool
  | d, [] => d
  | d, S :: srcs => definedAfter n (decide (S.entry ≠ n) && (S.mod.defines n || d)) srcs

/-- The definition of a name after the sources: the last one, up to the source that is linked in
for the name. -/
def lastDefinition (n : ν) : Shape δ ο ι → List (Source ν δ ο ι μ) → Shape δ ο ι
  | x, [] => x
  | x, S :: srcs =>
    if S.entry = n then (S.mod.shape? (.ext n)).getD x
    else lastDefinition n ((S.mod.shape? (.ext n)).getD x) srcs

section

variable {M N : Module ν δ ο ι μ} {S : Source ν δ ο ι μ} {srcs : List (Source ν δ ο ι μ)}
  {b : Binding ν (Shape δ ο ι)} {x : Shape δ ο ι} {m n : ν} {s : Sym ν}

namespace Binding

omit [DecidableEq ν] in
theorem declared?_eq_some {b : Binding ν σ} : b.declared? = some n ↔ b = .named n none := by
  cases b with
  | named m y => cases y <;> simp [declared?]
  | «local» y => simp [declared?]

theorem declared?_privatise {b : Binding ν σ} :
    (b.privatise n).declared? = some m ↔ b.declared? = some m ∧ n ≠ m := by
  cases b with
  | named k y =>
    by_cases hk : k = n
    · cases y <;> simp [privatise, declared?, hk]
    · cases y <;> simp only [privatise, declared?, hk, if_false, Option.some.injEq, reduceCtorEq,
        false_and]
      grind
  | «local» y => simp [privatise, declared?]

theorem declared?_after :
    (b.after S).declared? = some m ↔ b.declared? = some m ∧ ¬ S.Touches m := by
  rw [after, declared?_privatise, Source.Touches, not_or]
  cases b with
  | named k y =>
    cases hS : S.mod.shape? (.ext k) <;> cases y <;> simp [overlaid, declared?, hS, Module.defines]
    all_goals grind
  | «local» y => simp [overlaid, declared?]

theorem declared?_afterAll :
    (b.afterAll srcs).declared? = some m
      ↔ b.declared? = some m ∧ ∀ S ∈ srcs, ¬ S.Touches m := by
  induction srcs generalizing b with
  | nil => simp
  | cons S srcs ih => rw [afterAll_cons, ih, declared?_after, List.forall_mem_cons, and_assoc]

theorem declared?_entering : (b.entering M S).declared? = some m
    ↔ b.declared? = some m ∧ M.defines m = false ∧ S.entry ≠ m := by
  rw [entering, declared?_privatise]
  cases b with
  | named k y =>
    cases hM : M.shape? (.ext k) <;> cases y <;> simp [underlaid, declared?, hM, Module.defines]
    all_goals grind
  | «local» y => simp [underlaid, declared?]

/-- What a defined name reaches after the sources. -/
theorem shape?_afterAll_named :
    ((Binding.named n (some x)).afterAll srcs).shape? = some (lastDefinition n x srcs) := by
  induction srcs generalizing x with
  | nil => rfl
  | cons S srcs ih =>
    have hover : (Binding.named n (some x)).after S
        = (Binding.named n (some ((S.mod.shape? (.ext n)).getD x))).privatise S.entry := by
      rw [after, overlaid]
      cases S.mod.shape? (.ext n) <;> rfl
    rw [afterAll_cons, hover, lastDefinition]
    by_cases he : n = S.entry
    · rw [privatise, if_pos he, if_pos he.symm, afterAll_local]
      rfl
    · rw [privatise, if_neg he, if_neg (Ne.symm he), ih]

end Binding

theorem Module.defines_linkSource : (M.linkSource S).defines n
    = (decide (S.entry ≠ n) && (S.mod.defines n || M.defines n)) := by
  by_cases he : S.entry = n
  · have hnone : (M.linkSource S).shape? (.ext n) = none := by
      refine shapeIn_eq_none fun e hmem => ?_
      obtain ⟨e₀, -, rfl⟩ := List.mem_map.1 hmem
      simp only [renameEntry]
      cases e₀.1 <;> simp only [Sym.privatise]
      all_goals grind
    simp [defines, hnone, he]
  · rw [defines, linkSource, shape?_privatise_ext (Ne.symm he), shape?_link_ext, Option.isSome_or]
    simp [he, defines]

theorem Module.defines_linkAll :
    (M.linkAll srcs).defines n = definedAfter n (M.defines n) srcs := by
  induction srcs generalizing M with
  | nil => rfl
  | cons S srcs ih => rw [linkAll_cons, ih, defines_linkSource, definedAfter]

/-! ## What instructions do does not matter -/

/-- Two modules that differ at most in what their instructions do. -/
structure SameRefs (M N : Module ν δ ο ι μ) : Prop where
  defs : M.defs.map (fun e => (e.1, e.2.refs)) = N.defs.map fun e => (e.1, e.2.refs)
  declared : M.declared = N.declared
  next : M.next = N.next

omit [DecidableEq ν] in
theorem SameRefs.symm (h : SameRefs M N) : SameRefs N M :=
  ⟨h.defs.symm, h.declared.symm, h.next.symm⟩

omit [DecidableEq ν] in
theorem SameRefs.mem (h : SameRefs M N) {e : Sym ν × Def ν δ ο ι} (he : e ∈ M.defs) :
    ∃ e' ∈ N.defs, e'.1 = e.1 ∧ e'.2.refs = e.2.refs := by
  have := List.mem_map_of_mem (f := fun e : Sym ν × Def ν δ ο ι => (e.1, e.2.refs)) he
  rw [h.defs] at this
  obtain ⟨e', he', heq⟩ := List.mem_map.1 this
  exact ⟨e', he', (Prod.mk.inj heq).1, (Prod.mk.inj heq).2⟩

theorem SameRefs.shape?_isSome (h : SameRefs M N) (s : Sym ν) :
    (M.shape? s).isSome = (N.shape? s).isSome := by
  have key {M N : Module ν δ ο ι μ} (h : SameRefs M N) (hM : (M.shape? s).isSome) :
      (N.shape? s).isSome := by
    unfold Module.shape? Module.shapeIn at hM ⊢
    rw [Option.isSome_map, List.find?_isSome] at hM ⊢
    obtain ⟨e, he, hs⟩ := hM
    obtain ⟨e', he', heq, -⟩ := h.mem he
    exact ⟨e', he', heq ▸ hs⟩
  rw [Bool.eq_iff_iff]
  exact ⟨key h, key h.symm⟩

theorem SameRefs.declared?_binding (h : SameRefs M N) (s : Sym ν) :
    (M.binding s).declared? = (N.binding s).declared? := by
  cases s with
  | ext n =>
    have := h.shape?_isSome (.ext n)
    cases hM : M.shape? (.ext n) <;> cases hN : N.shape? (.ext n) <;>
      simp_all [Module.binding, Binding.declared?]
  | loc k => rfl

theorem SameRefs.mapOps (M : Module ν δ ο ι μ) (s : Sym ν) (f : ο → ο) :
    SameRefs (M.mapOps s f) M := by
  refine ⟨?_, rfl, rfl⟩
  rw [Module.mapOps, List.map_map]
  refine List.map_congr_left fun e _ => ?_
  simp only [Function.comp_apply]
  split <;> simp

omit [DecidableEq ν] in
theorem SameRefs.names (h : SameRefs M N) : M.names = N.names := by
  have key (M : Module ν δ ο ι μ) : M.names = M.declared
      ++ (M.defs.map fun e => (e.1, e.2.refs)).flatMap fun e =>
        e.1.name?.toList ++ e.2.filterMap (·.sym.name?) := by
    rw [List.flatMap_map]
    rfl
  rw [key, key, h.defs, h.declared]

theorem SameRefs.mentions (h : SameRefs M N) (n : ν) : M.mentions n = N.mentions n := by
  rw [Module.mentions, h.names, Module.mentions]

theorem Module.info?_mapOps (M : Module ν δ ο ι μ) (t s : Sym ν) (f : ο → ο) :
    ((M.mapOps t f).shape? s).map (·.info) = (M.shape? s).map (·.info) := by
  have hp : ((fun e : Sym ν × Def ν δ ο ι => decide (e.1 = s))
      ∘ fun e => if e.1 = t then (e.1, e.2.mapOps f) else e) = fun e => decide (e.1 = s) := by
    funext e
    simp only [Function.comp_apply]
    split <;> rfl
  simp only [shape?, shapeIn, mapOps, List.find?_map, hp, Option.map_map]
  refine Option.map_congr fun e _ => ?_
  simp only [Function.comp_apply]
  split <;> rfl

omit [DecidableEq ν] in
theorem map_renameEntry (f : Sym ν → Sym ν) (defs : List (Sym ν × Def ν δ ο ι)) :
    (defs.map (Module.renameEntry f)).map (fun e => (e.1, e.2.refs))
      = (defs.map fun e => (e.1, e.2.refs)).map fun e =>
        (f e.1, e.2.map fun r => ⟨f r.sym, r.denotes⟩) := by
  simp only [List.map_map, Function.comp_def, Module.renameEntry, Def.refs_mapSym]

theorem SameRefs.linkSource (h : SameRefs M N) (S : Source ν δ ο ι μ) :
    SameRefs (M.linkSource S) (N.linkSource S) := by
  have hlink : SameRefs (M.link S.mod) (N.link S.mod) := by
    refine ⟨?_, congrArg (· ++ S.mod.declared) h.names, congrArg (· + S.mod.next) h.next⟩
    have hfilter (defs : List (Sym ν × Def ν δ ο ι)) :
        (defs.filter fun e => ¬ (e.1.name?.any S.mod.defines)).map (fun e => (e.1, e.2.refs))
          = (defs.map fun e => (e.1, e.2.refs)).filter
            fun e => ¬ (e.1.name?.any S.mod.defines) := by
      rw [List.filter_map]
      rfl
    rw [Module.link, Module.link, List.map_append, List.map_append, hfilter, hfilter, h.defs,
      h.next]
  refine ⟨?_, congrArg (fun names => names.filter (· ≠ S.entry)) hlink.declared,
    congrArg (· + 1) hlink.next⟩
  show ((M.link S.mod).defs.map _).map _ = ((N.link S.mod).defs.map _).map _
  rw [map_renameEntry, map_renameEntry, hlink.defs, hlink.next]

theorem SameRefs.linkAll (h : SameRefs M N) (srcs : List (Source ν δ ο ι μ)) :
    SameRefs (M.linkAll srcs) (N.linkAll srcs) := by
  induction srcs generalizing M N with
  | nil => exact h
  | cons S srcs ih => exact ih (h.linkSource S)

/-! ## Names of local symbols -/

namespace Module

omit [DecidableEq ν] in
theorem mentions_of_rename {f : Sym ν → Sym ν} (hf : ∀ s, f s = .ext n → s = .ext n)
    {e : Sym ν × Def ν δ ο ι}
    (h : (renameEntry f e).1 = .ext n ∨ ∃ r ∈ (renameEntry f e).2.refs, r.sym = .ext n) :
    e.1 = .ext n ∨ ∃ r ∈ e.2.refs, r.sym = .ext n := by
  rcases h with h | ⟨r, hr, h⟩
  · exact .inl (hf _ h)
  · obtain ⟨r₀, hr₀, rfl⟩ := refs_renameEntry.1 hr
    exact .inr ⟨r₀, hr₀, hf _ h⟩

omit [DecidableEq ν] in
theorem eq_ext_of_shift {b : ℕ} {s : Sym ν} (h : s.shift b = .ext n) : s = .ext n := by
  cases s with
  | ext m => exact h
  | loc k => cases h

/-- A link loses no name. -/
theorem mentions_link : (M.link S.mod).mentions n = true
    ↔ M.mentions n = true ∨ S.mod.mentions n = true := by
  have hM : n ∈ M.names ↔ M.mentions n = true := (decide_eq_true_iff (p := n ∈ M.names)).symm
  rw [mentions_iff, mentions_iff (M := S.mod), ← hM]
  simp only [link, List.mem_append]
  constructor
  · rintro ((h | h) | ⟨e, he | he, h⟩)
    · exact .inl h
    · exact .inr (.inl h)
    · obtain ⟨e₀, he₀, rfl⟩ := List.mem_map.1 he
      exact .inr (.inr ⟨e₀, he₀, mentions_of_rename (fun _ => eq_ext_of_shift) h⟩)
    · exact .inl (hM.2 (mentions_iff.2 (.inr ⟨e, (List.mem_filter.1 he).1, h⟩)))
  · rintro (h | h | ⟨e, he, h⟩)
    · exact .inl (.inl h)
    · exact .inl (.inr h)
    · refine .inr ⟨_, .inl (List.mem_map_of_mem he), ?_⟩
      rcases h with h | ⟨r, hr, h⟩
      · exact .inl (congrArg (Sym.shift M.next) h)
      · exact .inr ⟨_, refs_renameEntry.2 ⟨r, hr, rfl⟩, congrArg (Sym.shift M.next) h⟩

/-- Making a symbol local takes its name away, and no other. -/
theorem mentions_privatise_iff {m : ν} : (M.privatise m).mentions n = true
    ↔ n ≠ m ∧ M.mentions n = true := by
  have hsym (s : Sym ν) : s.privatise m M.next = .ext n ↔ n ≠ m ∧ s = .ext n := by
    cases s with
    | loc k => simp [Sym.privatise]
    | ext m' =>
      rw [Sym.privatise]
      split_ifs with hm <;> simp <;> grind
  rw [mentions_iff, mentions_iff]
  constructor
  · rintro (h | ⟨e, he, h⟩)
    · obtain ⟨hmem, hne⟩ := List.mem_filter.1 h
      exact ⟨of_decide_eq_true hne, .inl hmem⟩
    · obtain ⟨e₀, he₀, rfl⟩ := List.mem_map.1 he
      rcases h with h | ⟨r, hr, h⟩
      · obtain ⟨hne, hs⟩ := (hsym _).1 h
        exact ⟨hne, .inr ⟨e₀, he₀, .inl hs⟩⟩
      · obtain ⟨r₀, hr₀, rfl⟩ := refs_renameEntry.1 hr
        obtain ⟨hne, hs⟩ := (hsym _).1 h
        exact ⟨hne, .inr ⟨e₀, he₀, .inr ⟨r₀, hr₀, hs⟩⟩⟩
  · rintro ⟨hne, h | ⟨e, he, h⟩⟩
    · exact .inl (List.mem_filter.2 ⟨h, decide_eq_true hne⟩)
    · refine .inr ⟨_, List.mem_map_of_mem he, ?_⟩
      rcases h with h | ⟨r, hr, h⟩
      · exact .inl ((hsym _).2 ⟨hne, h⟩)
      · exact .inr ⟨_, refs_renameEntry.2 ⟨r, hr, rfl⟩, (hsym _).2 ⟨hne, h⟩⟩

theorem mentions_privatise : (M.privatise n).mentions n = false := by
  rw [← Bool.not_eq_true, mentions_privatise_iff]
  exact fun h => h.1 rfl

theorem mentions_linkSource_iff : (M.linkSource S).mentions n = true
    ↔ n ≠ S.entry ∧ (M.mentions n = true ∨ S.mod.mentions n = true) := by
  rw [linkSource, mentions_privatise_iff, mentions_link]

theorem mentions_linkSource (hM : M.mentions n = false) (hS : S.mod.mentions n = false) :
    (M.linkSource S).mentions n = false := by
  rw [← Bool.not_eq_true, mentions_linkSource_iff, hM, hS]
  simp

theorem mem_localNames_linkSource {k : ℕ} (hk : k < M.next) :
    (n, k) ∈ (M.linkSource S).localNames ↔ (n, k) ∈ M.localNames ∧ S.mod.mentions n = false := by
  have hlink : (n, k) ∈ (M.link S.mod).localNames
      ↔ (n, k) ∈ M.localNames ∧ S.mod.mentions n = false := by
    simp only [link, List.mem_append, List.mem_filter, List.mem_map, decide_eq_true_eq,
      Bool.not_eq_true]
    constructor
    · rintro (h | ⟨e, -, heq⟩)
      · exact h
      · cases heq
        omega
    · exact .inl
  rw [← hlink, linkSource, privatise]
  simp only
  split
  · rw [List.mem_cons, or_iff_right]
    rintro ⟨⟩
    exact absurd hk (Nat.not_lt.2 (Nat.le_add_right _ _))
  · rfl

end Module

/-! ## What references declare -/

namespace Module

/-- A definition has a reference that stands for `d`: to the name `o` that nothing defines, or to
a definition. -/
def Declares (M : Module ν δ ο ι μ) (d : δ) (o : Option ν) : Prop :=
  ∃ key b, M.Binds key d b ∧ b.declared? = o

variable {key : Option ν} {d : δ} {o : Option ν} {x' : Def ν δ ο ι}

theorem forall_declares {p : Option ν → Prop} :
    (∀ o, M.Declares d o → p o) ↔ ∀ key b, M.Binds key d b → p b.declared? :=
  ⟨fun h key b hb => h _ ⟨key, b, hb, rfl⟩, fun h _ ⟨key, b, hb, ho⟩ => ho ▸ h key b hb⟩

/-- What the references of a module declare once sources are linked into it. -/
theorem forall_declares_linkAll {p : Option ν → Prop} :
    (∀ o, (M.linkAll srcs).Declares d o → p o) ↔
      (∀ key b, M.Binds key d b → Survives key srcs → p (b.afterAll srcs).declared?)
        ∧ ∀ pre S post, srcs = pre ++ S :: post → ∀ key b, S.mod.Binds key d b →
          Survives (privatiseKey S.entry key) post →
            p ((b.entering (M.linkAll pre) S).afterAll post).declared? := by
  rw [forall_declares]
  constructor
  · intro h
    constructor
    · intro key b hb hs
      obtain ⟨key', hb'⟩ := binds_linkAll.2 (.inl ⟨key, b, hb, hs, rfl⟩)
      exact h key' _ hb'
    · intro pre S post hsrcs key b hb hs
      obtain ⟨key', hb'⟩ := binds_linkAll.2 (.inr ⟨pre, S, post, hsrcs, key, b, hb, hs, rfl⟩)
      exact h key' _ hb'
  · rintro ⟨hM, hS⟩ key b hb
    rcases binds_linkAll.1 ⟨key, hb⟩ with ⟨key', b', hb', hs, rfl⟩ |
      ⟨pre, S, post, hsrcs, key', b', hb', hs, rfl⟩
    · exact hM key' b' hb' hs
    · exact hS pre S post hsrcs key' b' hb' hs

/-- The same references are in both modules, and reach no definition in both or in neither. -/
theorem declares_congr (h : SameRefs M N) : M.Declares d o ↔ N.Declares d o := by
  have key {M N : Module ν δ ο ι μ} (h : SameRefs M N) (hM : M.Declares d o) : N.Declares d o := by
    obtain ⟨_, _, ⟨e, he, rfl, r, hr, rfl, rfl⟩, rfl⟩ := hM
    obtain ⟨e', he', -, hrefs⟩ := h.mem he
    exact ⟨_, _, ⟨e', he', rfl, r, hrefs ▸ hr, rfl, rfl⟩, (h.declared?_binding r.sym).symm⟩
  exact ⟨key h, key h.symm⟩

theorem Binds.declared?_ne (h : M.Binds key d b) (hn : M.defines n = true) :
    b.declared? ≠ some n := by
  obtain ⟨e, -, -, r, -, -, rfl⟩ := h
  rw [Ne, Binding.declared?_eq_some]
  intro hb
  cases hs : r.sym with
  | ext m =>
    rw [hs, binding, Binding.named.injEq] at hb
    obtain ⟨rfl, hm⟩ := hb
    rw [defines, hm] at hn
    cases hn
  | loc k =>
    rw [hs, binding] at hb
    cases hb

/-- Making a defined symbol local leaves what references declare as it is. -/
theorem declares_privatise (h : M.defines n = true) :
    (M.privatise n).Declares d o ↔ M.Declares d o := by
  have hsame {key : Option ν} {b : Binding ν (Shape δ ο ι)} (hb : M.Binds key d b) :
      (b.privatise n).declared? = b.declared? := by
    have hne := hb.declared?_ne h
    refine Option.ext fun m => ?_
    rw [Binding.declared?_privatise, and_iff_left_iff_imp]
    rintro hm rfl
    exact hne hm
  constructor
  · rintro ⟨key, b, hb, rfl⟩
    obtain ⟨key₀, b₀, hb₀, -, rfl⟩ := binds_privatise.1 hb
    exact ⟨key₀, b₀, hb₀, (hsame hb₀).symm⟩
  · rintro ⟨key, b, hb, rfl⟩
    exact ⟨_, _, binds_privatise.2 ⟨key, b, hb, rfl, rfl⟩, hsame hb⟩

theorem binding_define (h : s ≠ .ext n) : (M.define n x').binding s = M.binding s := by
  have hshape {t : Sym ν} (ht : t ≠ .ext n) : (M.define n x').shape? t = M.shape? t := by
    simp [shape?, shapeIn, define, Ne.symm ht]
  cases s <;> simp only [binding, hshape h]

/-- A definition under a name that nothing mentions, without references of the kind, leaves what
they declare as it is. -/
theorem declares_define (h : M.mentions n = false) (hd : ∀ r ∈ x'.refs, r.denotes ≠ d) :
    (M.define n x').Declares d o ↔ M.Declares d o := by
  have hsame {e : Sym ν × Def ν δ ο ι} (he : e ∈ M.defs) {r : Ref ν δ} (hr : r ∈ e.2.refs) :
      (M.define n x').binding r.sym = M.binding r.sym := by
    refine binding_define fun hs => ?_
    rw [← Bool.not_eq_true, mentions_iff] at h
    exact h (.inr ⟨e, he, .inr ⟨r, hr, hs⟩⟩)
  constructor
  · rintro ⟨_, _, ⟨e, he, rfl, r, hr, rfl, rfl⟩, rfl⟩
    rcases List.mem_cons.1 he with rfl | he
    · exact absurd rfl (hd r hr)
    · exact ⟨_, _, ⟨e, he, rfl, r, hr, rfl, rfl⟩, by rw [hsame he hr]⟩
  · rintro ⟨_, _, ⟨e, he, rfl, r, hr, rfl, rfl⟩, rfl⟩
    exact ⟨_, _, ⟨e, List.mem_cons_of_mem _ he, rfl, r, hr, rfl, rfl⟩, by rw [hsame he hr]⟩

end Module

end

end Linker
