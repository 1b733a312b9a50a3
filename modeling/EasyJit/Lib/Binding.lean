import EasyJit.Lib.Linker
import Mathlib.Data.List.Find

/-!
# What the references of a linked module reach

A reference is bound to a symbol, and through it to the definition the module has for that
symbol, if it has one (`Module.binding`). Linking a source and making its entry local changes
the binding of a name in one of two ways: the source's definition of the name replaces whatever
there was, and a reference to the entry's name is from then on bound to the entry
(`Source.after`). `binds_linkAll` says, for a module that many sources were linked into one after
the other, what each reference of each definition that is left is bound to.
-/

namespace Linker

/-- What a reference reaches: the definition, if there is one, of a name or of a local symbol. -/
inductive Binding (ν σ : Type*)
  | named (n : ν) (x : Option σ)
  | local (x : Option σ)
  deriving DecidableEq, Repr

section

variable {ν δ ο ι μ σ : Type*} [DecidableEq ν]

namespace Binding

/-- The definition that is reached. -/
def shape? : Binding ν σ → Option σ
  | named _ x => x
  | .local x => x

def privatise (n : ν) : Binding ν σ → Binding ν σ
  | named m x => if m = n then .local x else named m x
  | .local x => .local x

/-- The binding of a reference of the destination, once `S` is linked into it. -/
def overlaid (S : Module ν δ ο ι μ) : Binding ν (Shape δ ο ι) → Binding ν (Shape δ ο ι)
  | named n x => named n ((S.shape? (.ext n)).or x)
  | .local x => .local x

/-- The binding of a reference of the source, once it is linked into `M`. -/
def underlaid (M : Module ν δ ο ι μ) : Binding ν (Shape δ ο ι) → Binding ν (Shape δ ο ι)
  | named n x => named n (x.or (M.shape? (.ext n)))
  | .local x => .local x

end Binding

namespace Module

variable {M S : Module ν δ ο ι μ} {n m : ν} {s : Sym ν} {k : ℕ}

def binding (M : Module ν δ ο ι μ) : Sym ν → Binding ν (Shape δ ο ι)
  | .ext n => .named n (M.shape? (.ext n))
  | .loc k => .local (M.shape? (.loc k))

/-- A definition with the name `k`, or a local one, refers to what is bound to `b`, and the
reference stands for `d`. -/
def Binds (M : Module ν δ ο ι μ) (k : Option ν) (d : δ) (b : Binding ν (Shape δ ο ι)) : Prop :=
  ∃ e ∈ M.defs, e.1.name? = k ∧ ∃ r ∈ e.2.refs, r.denotes = d ∧ M.binding r.sym = b

section Info

variable {defs : List (Sym ν × Def ν δ ο ι)} {f : Sym ν → Sym ν} {t : Sym ν}

theorem shapeIn_renameEntry (hf : ∀ e ∈ defs, f e.1 = t ↔ e.1 = s) :
    shapeIn (defs.map (renameEntry f)) t = shapeIn defs s := by
  have hp : ∀ e ∈ defs, ((fun e => decide (e.1 = t)) ∘ renameEntry f) e = decide (e.1 = s) :=
    fun e he => by simp only [Function.comp_apply, renameEntry, hf e he]
  have hshape : (fun e : Sym ν × Def ν δ ο ι => e.2.shape) ∘ renameEntry f = fun e => e.2.shape :=
    funext fun e => Def.shape_mapSym f e.2
  rw [shapeIn, List.find?_map, List.find?_congr hp, Option.map_map, hshape, shapeIn]

theorem shapeIn_eq_none (h : ∀ e ∈ defs, e.1 ≠ t) : shapeIn defs t = none := by
  simpa [shapeIn, List.find?_eq_none] using h

theorem shapeIn_append (defs' : List (Sym ν × Def ν δ ο ι)) :
    shapeIn (defs ++ defs') t = (shapeIn defs t).or (shapeIn defs' t) := by
  simp [shapeIn, List.find?_append, Option.map_or]

theorem shapeIn_filter {p : Sym ν × Def ν δ ο ι → Bool} (h : ∀ e ∈ defs, e.1 = t → p e = true) :
    shapeIn (defs.filter p) t = shapeIn defs t := by
  have hp : ∀ e ∈ defs, decide (p e = true ∧ decide (e.1 = t) = true) = decide (e.1 = t) :=
    fun e he => by by_cases ht : e.1 = t <;> simp [ht, h e he]
  simp only [shapeIn, List.find?_filter, List.find?_congr hp]

theorem shape?_link_ext :
    (M.link S).shape? (.ext n) = (S.shape? (.ext n)).or (M.shape? (.ext n)) := by
  have hS : shapeIn (S.defs.map (renameEntry (Sym.shift M.next))) (.ext n) = S.shape? (.ext n) :=
    shapeIn_renameEntry fun e _ => by cases e.1 <;> simp [Sym.shift]
  have hM : S.defines n = false →
      shapeIn (M.defs.filter fun e => ¬ (e.1.name?.any S.defines)) (.ext n) = M.shape? (.ext n) :=
    fun h => shapeIn_filter fun e _ he => by simp [he, Sym.name?, h]
  rw [shape?, link, shapeIn_append, hS]
  cases h : S.shape? (.ext n) with
  | some x => rfl
  | none => rw [hM (by simp [defines, h])]

theorem shape?_link_shift : (M.link S).shape? (.loc (k + M.next)) = S.shape? (.loc k) := by
  have hS : shapeIn (S.defs.map (renameEntry (Sym.shift M.next))) (.loc (k + M.next))
      = S.shape? (.loc k) :=
    shapeIn_renameEntry fun e _ => by cases e.1 <;> simp [Sym.shift]
  have hM : shapeIn (M.defs.filter fun e => ¬ (e.1.name?.any S.defines)) (.loc (k + M.next))
      = none := by
    refine shapeIn_eq_none fun e he h => ?_
    have : e.1.Below M.next := M.defs_below e (List.mem_filter.1 he).1
    rw [h] at this
    exact absurd this (by simp [Sym.Below])
  rw [shape?, link, shapeIn_append, hS, hM, Option.or_none]

theorem shape?_link_loc (hk : k < M.next) : (M.link S).shape? (.loc k) = M.shape? (.loc k) := by
  have hS : shapeIn (S.defs.map (renameEntry (Sym.shift M.next))) (.loc k) = none := by
    refine shapeIn_eq_none fun e he h => ?_
    obtain ⟨e₀, -, rfl⟩ := List.mem_map.1 he
    cases h₀ : e₀.1 <;> simp [renameEntry, h₀, Sym.shift] at h
    omega
  have hM : shapeIn (M.defs.filter fun e => ¬ (e.1.name?.any S.defines)) (.loc k)
      = M.shape? (.loc k) :=
    shapeIn_filter fun e _ he => by simp [he, Sym.name?]
  rw [shape?, link, shapeIn_append, hS, hM, Option.none_or]

theorem shape?_privatise_ext (h : m ≠ n) :
    (M.privatise n).shape? (.ext m) = M.shape? (.ext m) :=
  shapeIn_renameEntry fun e _ => by
    cases e.1 <;> simp only [Sym.privatise]
    all_goals grind

theorem shape?_privatise_next : (M.privatise n).shape? (.loc M.next) = M.shape? (.ext n) :=
  shapeIn_renameEntry fun e he => by
    have := M.defs_below e he
    cases h : e.1 with
    | ext m => by_cases hm : m = n <;> simp [Sym.privatise, hm]
    | loc j =>
      rw [h] at this
      have : j < M.next := this
      simp only [Sym.privatise, Sym.loc.injEq, reduceCtorEq, iff_false]
      omega

theorem shape?_privatise_loc (hk : k < M.next) :
    (M.privatise n).shape? (.loc k) = M.shape? (.loc k) :=
  shapeIn_renameEntry fun e _ => by
    cases e.1 with
    | ext m =>
      simp only [Sym.privatise]
      split
      · simp only [Sym.loc.injEq, reduceCtorEq, iff_false]
        omega
      · simp
    | loc j => simp [Sym.privatise]

end Info

section Binding

theorem binding_link (h : s.Below M.next) :
    (M.link S).binding s = (M.binding s).overlaid S := by
  cases s with
  | ext n => simp only [binding, Binding.overlaid, shape?_link_ext]
  | loc k => simp only [binding, Binding.overlaid, shape?_link_loc h]

theorem binding_link_shift :
    (M.link S).binding (s.shift M.next) = (S.binding s).underlaid M := by
  cases s with
  | ext n => simp only [Sym.shift, binding, Binding.underlaid, shape?_link_ext]
  | loc k => simp only [Sym.shift, binding, Binding.underlaid, shape?_link_shift]

theorem binding_privatise (h : s.Below M.next) :
    (M.privatise n).binding (s.privatise n M.next) = (M.binding s).privatise n := by
  cases s with
  | ext m =>
    by_cases hm : m = n
    · simp [Sym.privatise, binding, Binding.privatise, hm, shape?_privatise_next]
    · simp [Sym.privatise, binding, Binding.privatise, hm, shape?_privatise_ext]
  | loc k => simp only [Sym.privatise, binding, Binding.privatise, shape?_privatise_loc h]

end Binding

section Binds

variable {key : Option ν} {d : δ} {b : Binding ν (Shape δ ο ι)}

/-- The name of a definition, after the external symbol `n` was made local. -/
def privatiseKey (n : ν) (key : Option ν) : Option ν := if key = some n then none else key

omit [DecidableEq ν] in
theorem name?_shift (c : ℕ) : (s.shift c).name? = s.name? := by cases s <;> rfl

theorem name?_privatise : (s.privatise n k).name? = privatiseKey n s.name? := by
  cases s with
  | ext m => by_cases h : m = n <;> simp [Sym.privatise, Sym.name?, privatiseKey, h]
  | loc j => rfl

theorem binds_privatise : (M.privatise n).Binds key d b ↔
    ∃ key₀ b₀, M.Binds key₀ d b₀ ∧ key = privatiseKey n key₀ ∧ b = b₀.privatise n := by
  constructor
  · rintro ⟨e, he, rfl, r, hr, rfl, rfl⟩
    obtain ⟨e₀, he₀, rfl⟩ := List.mem_map.1 he
    obtain ⟨r₀, hr₀, rfl⟩ := refs_renameEntry.1 hr
    exact ⟨_, _, ⟨e₀, he₀, rfl, r₀, hr₀, rfl, rfl⟩, name?_privatise,
      binding_privatise (M.refs_below e₀ he₀ r₀ hr₀)⟩
  · rintro ⟨_, _, ⟨e₀, he₀, rfl, r₀, hr₀, rfl, rfl⟩, rfl, rfl⟩
    exact ⟨_, List.mem_map_of_mem he₀, name?_privatise, _,
      refs_renameEntry.2 ⟨r₀, hr₀, rfl⟩, rfl, binding_privatise (M.refs_below e₀ he₀ r₀ hr₀)⟩

end Binds

end Module

section Run

variable {M : Module ν δ ο ι μ} {S : Source ν δ ο ι μ} {srcs : List (Source ν δ ο ι μ)}
  {key : Option ν} {d : δ} {b : Binding ν (Shape δ ο ι)} {n : ν} {x : Option (Shape δ ο ι)}

/-- The binding of a reference of the destination, once `S` is linked in and its entry local. -/
def Binding.after (S : Source ν δ ο ι μ) (b : Binding ν (Shape δ ο ι)) : Binding ν (Shape δ ο ι) :=
  (b.overlaid S.mod).privatise S.entry

/-- The same for a reference of the source. -/
def Binding.entering (M : Module ν δ ο ι μ) (S : Source ν δ ο ι μ) (b : Binding ν (Shape δ ο ι)) :
    Binding ν (Shape δ ο ι) :=
  (b.underlaid M).privatise S.entry

def Binding.afterAll (srcs : List (Source ν δ ο ι μ)) (b : Binding ν (Shape δ ο ι)) :
    Binding ν (Shape δ ο ι) :=
  srcs.foldl (fun b S => b.after S) b

/-- No source overrides the definition with the name `key`. Once it is private, none can. -/
def Survives : Option ν → List (Source ν δ ο ι μ) → Prop
  | _, [] => True
  | key, S :: srcs => ¬ key.any S.mod.defines ∧ Survives (Module.privatiseKey S.entry key) srcs

/-! ## Where definitions end up -/

namespace Module

variable {e : Sym ν × Def ν δ ο ι} {s : Sym ν}

/-- A symbol of `M`, once `S` is linked in and its entry is local. -/
def moved (M : Module ν δ ο ι μ) (S : Source ν δ ο ι μ) (s : Sym ν) : Sym ν :=
  s.privatise S.entry (M.next + S.mod.next)

/-- The same for a symbol of the source. -/
def brought (M : Module ν δ ο ι μ) (S : Source ν δ ο ι μ) (s : Sym ν) : Sym ν :=
  (s.shift M.next).privatise S.entry (M.next + S.mod.next)

def movedAll : Module ν δ ο ι μ → List (Source ν δ ο ι μ) → Sym ν → Sym ν
  | _, [], s => s
  | M, S :: srcs, s => movedAll (M.linkSource S) srcs (M.moved S s)

@[simp] theorem movedAll_nil (M : Module ν δ ο ι μ) : M.movedAll [] = id := rfl

@[simp] theorem movedAll_cons (M : Module ν δ ο ι μ) :
    M.movedAll (S :: srcs) = (M.linkSource S).movedAll srcs ∘ M.moved S := rfl

@[simp] theorem linkAll_nil (M : Module ν δ ο ι μ) : M.linkAll [] = M := rfl

@[simp] theorem linkAll_cons (M : Module ν δ ο ι μ) :
    M.linkAll (S :: srcs) = (M.linkSource S).linkAll srcs := rfl

theorem linkAll_append (M : Module ν δ ο ι μ) (srcs srcs' : List (Source ν δ ο ι μ)) :
    M.linkAll (srcs ++ srcs') = (M.linkAll srcs).linkAll srcs' := by
  simp [linkAll]

/-- The definition `e` of `X`, which is `M` or a source, is still there once all sources are
linked into `M`, with its symbols renamed by `f`. -/
inductive Kept (M : Module ν δ ο ι μ) (srcs : List (Source ν δ ο ι μ)) :
    Module ν δ ο ι μ → (Sym ν → Sym ν) → Sym ν × Def ν δ ο ι → Prop
  | own {e : Sym ν × Def ν δ ο ι} (he : e ∈ M.defs) (hs : Survives e.1.name? srcs) :
    Kept M srcs M (M.movedAll srcs) e
  | source {pre S post} {e : Sym ν × Def ν δ ο ι} (hsrcs : srcs = pre ++ S :: post)
    (he : e ∈ S.mod.defs) (hs : Survives (privatiseKey S.entry e.1.name?) post) :
    Kept M srcs S.mod (((M.linkAll pre).linkSource S).movedAll post ∘ (M.linkAll pre).brought S) e

omit [DecidableEq ν] in
theorem renameEntry_comp (f g : Sym ν → Sym ν) (e : Sym ν × Def ν δ ο ι) :
    renameEntry g (renameEntry f e) = renameEntry (g ∘ f) e := by
  simp [renameEntry, Def.mapSym, Inst.mapSym, Function.comp_def]

omit [DecidableEq ν] in
@[simp] theorem renameEntry_id (e : Sym ν × Def ν δ ο ι) : renameEntry id e = e := by
  have hinst : (Inst.mapSym id : Inst ν δ ο → Inst ν δ ο) = id :=
    funext fun i => by simp [Inst.mapSym]
  rw [renameEntry, Def.mapSym, hinst, List.map_id]
  rfl

theorem mem_defs_linkSource : e ∈ (M.linkSource S).defs ↔
    (∃ e₀ ∈ S.mod.defs, renameEntry (M.brought S) e₀ = e)
      ∨ ∃ e₀ ∈ M.defs, ¬ e₀.1.name?.any S.mod.defines ∧ renameEntry (M.moved S) e₀ = e := by
  have hdefs : (M.linkSource S).defs = (S.mod.defs.map (renameEntry (Sym.shift M.next))
      ++ M.defs.filter fun e => ¬ (e.1.name?.any S.mod.defines)).map
        (renameEntry (Sym.privatise S.entry (M.next + S.mod.next))) := rfl
  simp only [hdefs, List.map_append, List.map_map, List.mem_append, List.mem_map,
    Function.comp_apply, renameEntry_comp, List.mem_filter, decide_eq_true_eq, and_assoc]
  rfl

theorem name?_brought : (M.brought S s).name? = privatiseKey S.entry s.name? := by
  rw [brought, name?_privatise, name?_shift]

theorem name?_moved : (M.moved S s).name? = privatiseKey S.entry s.name? := name?_privatise

theorem Kept.of_linkSource_own {e₀ : Sym ν × Def ν δ ο ι} (he₀ : e₀ ∈ (M.linkSource S).defs)
    (hs : Survives e₀.1.name? srcs) :
    ∃ X f e, M.Kept (S :: srcs) X f e
      ∧ renameEntry f e = renameEntry ((M.linkSource S).movedAll srcs) e₀ := by
  rcases mem_defs_linkSource.1 he₀ with ⟨e, he, rfl⟩ | ⟨e, he, hover, rfl⟩
  · refine ⟨_, _, e, .source (List.nil_append _).symm he ?_, (renameEntry_comp _ _ e).symm⟩
    rwa [← name?_brought (M := M)]
  · refine ⟨_, _, e, .own he ⟨hover, ?_⟩, (renameEntry_comp _ _ e).symm⟩
    rwa [← name?_moved (M := M)]

/-- The definitions of a module that sources were linked into are those of the sources and of the
module itself that no later source overrides. -/
theorem mem_defs_linkAll : e ∈ (M.linkAll srcs).defs ↔
    ∃ X f e₀, M.Kept srcs X f e₀ ∧ renameEntry f e₀ = e := by
  induction srcs generalizing M with
  | nil =>
    constructor
    · exact fun he => ⟨M, id, e, .own he trivial, renameEntry_id e⟩
    · rintro ⟨X, f, e₀, ⟨he, -⟩ | ⟨hsrcs, -, -⟩, rfl⟩
      · exact (renameEntry_id e₀).symm ▸ he
      · simp at hsrcs
  | cons S srcs ih =>
    rw [linkAll_cons, ih]
    constructor
    · rintro ⟨X, f, e₀, ⟨he, hs⟩ | ⟨rfl, he, hs⟩, rfl⟩
      · exact Kept.of_linkSource_own he hs
      · exact ⟨_, _, e₀, .source (List.cons_append).symm he hs, rfl⟩
    · rintro ⟨X, f, e₀, ⟨he, hs⟩ | @⟨pre, S', post, e₀, hsrcs, he, hs⟩, rfl⟩
      · refine ⟨_, _, renameEntry (M.moved S) e₀,
          .own (mem_defs_linkSource.2 (.inr ⟨e₀, he, hs.1, rfl⟩)) ?_, renameEntry_comp _ _ e₀⟩
        show Survives (M.moved S e₀.1).name? srcs
        rw [name?_moved]
        exact hs.2
      · cases pre with
        | nil =>
          obtain ⟨rfl, rfl⟩ := List.cons.inj hsrcs
          refine ⟨_, _, renameEntry (M.brought S) e₀,
            .own (mem_defs_linkSource.2 (.inl ⟨e₀, he, rfl⟩)) ?_, renameEntry_comp _ _ e₀⟩
          show Survives (M.brought S e₀.1).name? srcs
          rwa [name?_brought]
        | cons S'' pre =>
          obtain ⟨rfl, rfl⟩ := List.cons.inj hsrcs
          exact ⟨_, _, e₀, .source rfl he hs, rfl⟩

/-! ## What references are bound to -/

theorem binding_moved (h : s.Below M.next) :
    (M.linkSource S).binding (M.moved S s) = (M.binding s).after S := by
  have hlink : s.Below (M.link S.mod).next := h.mono (Nat.le_add_right _ _)
  rw [Binding.after, ← binding_link h, ← binding_privatise hlink]
  rfl

theorem binding_brought (h : s.Below S.mod.next) :
    (M.linkSource S).binding (M.brought S s) = (S.mod.binding s).entering M S := by
  have hlink : (s.shift M.next).Below (M.link S.mod).next := h.shift M.next
  rw [Binding.entering, ← binding_link_shift, ← binding_privatise hlink]
  rfl

theorem below_moved (h : s.Below M.next) : (M.moved S s).Below (M.linkSource S).next :=
  Sym.Below.privatise (h.mono (Nat.le_add_right _ _)) S.entry

theorem below_brought (h : s.Below S.mod.next) : (M.brought S s).Below (M.linkSource S).next :=
  Sym.Below.privatise (h.shift M.next) S.entry

theorem binding_movedAll (h : s.Below M.next) :
    (M.linkAll srcs).binding (M.movedAll srcs s) = (M.binding s).afterAll srcs := by
  induction srcs generalizing M s with
  | nil => rfl
  | cons S srcs ih =>
    rw [linkAll_cons, movedAll_cons, Function.comp_apply, ih (below_moved h), binding_moved h]
    rfl

theorem binding_source {pre post : List (Source ν δ ο ι μ)} (h : s.Below S.mod.next) :
    (M.linkAll (pre ++ S :: post)).binding
        (((M.linkAll pre).linkSource S).movedAll post ((M.linkAll pre).brought S s))
      = ((S.mod.binding s).entering (M.linkAll pre) S).afterAll post := by
  rw [linkAll_append, linkAll_cons, binding_movedAll (below_brought h), binding_brought h]

end Module

/-- The references of a module that sources were linked into are those of the sources and of the
module itself that are in definitions no later source overrides. Each is bound to what the later
sources make of the binding it had when its module came in. -/
theorem binds_linkAll : (∃ key, (M.linkAll srcs).Binds key d b) ↔
    (∃ key b₀, M.Binds key d b₀ ∧ Survives key srcs ∧ b = b₀.afterAll srcs)
      ∨ ∃ pre S post, srcs = pre ++ S :: post ∧ ∃ key b₀, S.mod.Binds key d b₀
        ∧ Survives (Module.privatiseKey S.entry key) post
        ∧ b = (b₀.entering (M.linkAll pre) S).afterAll post := by
  constructor
  · rintro ⟨_, e, he, -, r, hr, rfl, rfl⟩
    obtain ⟨X, f, e₀, hkept, rfl⟩ := Module.mem_defs_linkAll.1 he
    obtain ⟨r₀, hr₀, rfl⟩ := Module.refs_renameEntry.1 hr
    cases hkept with
    | own he₀ hs =>
      exact .inl ⟨_, _, ⟨e₀, he₀, rfl, r₀, hr₀, rfl, rfl⟩, hs,
        Module.binding_movedAll (M.refs_below e₀ he₀ r₀ hr₀)⟩
    | @source pre S post _ hsrcs he₀ hs =>
      subst hsrcs
      exact .inr ⟨pre, S, post, rfl, _, _, ⟨e₀, he₀, rfl, r₀, hr₀, rfl, rfl⟩, hs,
        Module.binding_source (S.mod.refs_below e₀ he₀ r₀ hr₀)⟩
  · rintro (⟨_, _, ⟨e₀, he₀, rfl, r₀, hr₀, rfl, rfl⟩, hs, rfl⟩ |
      ⟨pre, S, post, rfl, _, _, ⟨e₀, he₀, rfl, r₀, hr₀, rfl, rfl⟩, hs, rfl⟩)
    · exact ⟨_, _, Module.mem_defs_linkAll.2 ⟨_, _, e₀, .own he₀ hs, rfl⟩, rfl, _,
        Module.refs_renameEntry.2 ⟨r₀, hr₀, rfl⟩, rfl,
        Module.binding_movedAll (M.refs_below e₀ he₀ r₀ hr₀)⟩
    · exact ⟨_, _, Module.mem_defs_linkAll.2 ⟨_, _, e₀, .source rfl he₀ hs, rfl⟩, rfl, _,
        Module.refs_renameEntry.2 ⟨r₀, hr₀, rfl⟩, rfl,
        Module.binding_source (S.mod.refs_below e₀ he₀ r₀ hr₀)⟩

/-! ## Local symbols stay -/

namespace Module

theorem next_linkSource : (M.linkSource S).next = M.next + S.mod.next + 1 := rfl

theorem shape?_linkSource_loc {k : ℕ} (hk : k < M.next) :
    (M.linkSource S).shape? (.loc k) = M.shape? (.loc k) := by
  have hk' : k < (M.link S.mod).next := Nat.lt_of_lt_of_le hk (Nat.le_add_right _ _)
  rw [linkSource, shape?_privatise_loc hk', shape?_link_loc hk]

theorem shape?_linkAll_loc {k : ℕ} (hk : k < M.next) :
    (M.linkAll srcs).shape? (.loc k) = M.shape? (.loc k) := by
  induction srcs generalizing M with
  | nil => rfl
  | cons S srcs ih =>
    have hk' : k < (M.linkSource S).next := by
      rw [next_linkSource]
      omega
    rw [linkAll_cons, ih hk', shape?_linkSource_loc hk]

/-- The private symbol a source was linked in for. -/
theorem shape?_linkSource_entry : (M.linkSource S).shape? (.loc (M.next + S.mod.next))
    = (S.mod.shape? (.ext S.entry)).or (M.shape? (.ext S.entry)) := by
  rw [linkSource, ← shape?_link_ext]
  exact shape?_privatise_next

omit [DecidableEq ν] in
theorem Sym.name?_eq_some {s : Sym ν} : s.name? = some n ↔ s = .ext n := by
  cases s <;> simp [Sym.name?]

theorem mentions_iff : M.mentions n = true ↔ n ∈ M.declared
    ∨ ∃ e ∈ M.defs, e.1 = .ext n ∨ ∃ r ∈ e.2.refs, r.sym = .ext n := by
  rw [mentions, decide_eq_true_iff]
  simp [names, Sym.name?_eq_some]

theorem mentions_of_defines (h : M.defines n = true) : M.mentions n = true := by
  unfold defines shape? shapeIn at h
  rw [Option.isSome_map, List.find?_isSome] at h
  obtain ⟨e, he, hn⟩ := h
  exact mentions_iff.2 (.inr ⟨e, he, .inl (by simpa using hn)⟩)

theorem defines_link (h : S.mod.defines n = true) : (M.link S.mod).defines n = true := by
  rw [defines, shape?_link_ext, Option.isSome_or]
  simp only [defines] at h
  simp [h]

theorem metadata_linkAll (hM : M.metadata = none) (hS : ∀ S ∈ srcs, S.mod.metadata = none) :
    (M.linkAll srcs).metadata = none := by
  induction srcs generalizing M with
  | nil => exact hM
  | cons S srcs ih =>
    obtain ⟨h, hs⟩ := List.forall_mem_cons.1 hS
    refine ih ?_ hs
    show appendMetadata M.metadata S.mod.metadata = none
    rw [hM, h]
    rfl

end Module

/-! ## Names and what defines them -/

/-- Linking the source may change what the name `n` reaches. -/
def Source.Touches (S : Source ν δ ο ι μ) (n : ν) : Prop := S.mod.defines n = true ∨ S.entry = n

instance (S : Source ν δ ο ι μ) (n : ν) : Decidable (S.Touches n) :=
  inferInstanceAs (Decidable (_ ∨ _))

@[simp] theorem Binding.afterAll_nil (b : Binding ν (Shape δ ο ι)) :
    b.afterAll ([] : List (Source ν δ ο ι μ)) = b := rfl

@[simp] theorem Binding.afterAll_cons (b : Binding ν (Shape δ ο ι)) :
    b.afterAll (S :: srcs) = (b.after S).afterAll srcs := rfl

@[simp] theorem Binding.afterAll_local :
    (Binding.local x : Binding ν (Shape δ ο ι)).afterAll srcs = .local x := by
  induction srcs with
  | nil => rfl
  | cons S srcs ih => exact ih

theorem Module.shape?_linkSource_ext (h : ¬ S.Touches n) :
    (M.linkSource S).shape? (.ext n) = M.shape? (.ext n) := by
  obtain ⟨hd, he⟩ := not_or.1 h
  have hnone : S.mod.shape? (.ext n) = none := by simpa [Module.defines] using hd
  rw [linkSource, shape?_privatise_ext (Ne.symm he), shape?_link_ext, hnone, Option.none_or]

theorem Module.shape?_linkAll_ext (h : ∀ S ∈ srcs, ¬ S.Touches n) :
    (M.linkAll srcs).shape? (.ext n) = M.shape? (.ext n) := by
  induction srcs generalizing M with
  | nil => rfl
  | cons S srcs ih =>
    obtain ⟨hS, hsrcs⟩ := List.forall_mem_cons.1 h
    rw [linkAll_cons, ih hsrcs, shape?_linkSource_ext hS]

theorem Module.below_of_shape? {s : Sym ν} {y : Shape δ ο ι} (h : M.shape? s = some y) :
    s.Below M.next := by
  obtain ⟨e, he, -⟩ := Option.map_eq_some_iff.1 h
  have hs : e.1 = s := by simpa using List.find?_some he
  exact hs ▸ M.defs_below e (List.mem_of_find?_eq_some he)

/-- A symbol whose name no source touches keeps its definition. -/
theorem Module.shape?_linkAll_of_not_touches {s : Sym ν} {y : Shape δ ο ι}
    (h : M.shape? s = some y) (hs : ∀ n ∈ s.name?, ∀ S ∈ srcs, ¬ S.Touches n) :
    (M.linkAll srcs).shape? s = some y := by
  cases s with
  | ext n => rw [shape?_linkAll_ext (hs n rfl), h]
  | loc k => rw [shape?_linkAll_loc (below_of_shape? h), h]

end Run

end

end Linker
