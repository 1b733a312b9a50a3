import EasyJit.Lib.Declared
import Mathlib.Data.List.Forall2

/-!
# What a module means

A symbol is run to a bounded depth: what its definition does is worked out from what its
references do, and what a name that nothing defines does is looked up in an environment
(`Module.meaning`). How is left open, so that two symbols with one meaning under every
interpretation have the same code, and so has all that they reach.

Linking lets names capture one another. `keepsMeaning` says when it does not matter: where the
modules mean what the environment does by the names that they share, every symbol keeps its meaning,
whatever is overridden. A name that is made local is still found and means what the environment does
(`Finds.linkAll`), and an entry what it meant in its source (`holdsEntry_linkSource`).
-/

namespace Linker

/-- What a definition does, given what the references of its instructions do. -/
structure Interpretation (ο ι V : Type*) where
  apply : ι → List (ο × List V) → V
  /-- Of a run that gets too deep, and of a local symbol without a definition. -/
  bottom : V

section

variable {ν δ ο ι μ V : Type*}

def Def.interpret (I : Interpretation ο ι V) (d : Def ν δ ο ι) (f : Sym ν → V) : V :=
  I.apply d.info (d.body.map fun i => (i.op, i.refs.map fun r => f r.sym))

theorem Def.interpret_congr {I : Interpretation ο ι V} {d : Def ν δ ο ι} {f g : Sym ν → V}
    (h : ∀ r ∈ d.refs, f r.sym = g r.sym) : d.interpret I f = d.interpret I g := by
  refine congrArg (I.apply d.info) (List.map_congr_left fun i hi => ?_)
  exact congrArg (i.op, ·)
    (List.map_congr_left fun r hr => h r (List.mem_flatMap_of_mem hi hr))

theorem Def.interpret_mapSym {I : Interpretation ο ι V} {d : Def ν δ ο ι} {f : Sym ν → Sym ν}
    {g : Sym ν → V} : (d.mapSym f).interpret I g = d.interpret I (g ∘ f) := by
  simp [interpret, mapSym, Inst.mapSym, Function.comp_def]

/-- What a symbol without a definition means. -/
def Sym.lookup (env : ν → ℕ → V) (bottom : V) (n : ℕ) : Sym ν → V
  | ext m => env m n
  | loc _ => bottom

variable [DecidableEq ν]

namespace Module

/-- The definition a symbol has, with the symbols that it refers to. -/
def definition? (M : Module ν δ ο ι μ) (s : Sym ν) : Option (Def ν δ ο ι) :=
  (M.defs.find? (·.1 = s)).map (·.2)

/-- What a symbol means, at most so deep. -/
def meaning (I : Interpretation ο ι V) (env : ν → ℕ → V) (M : Module ν δ ο ι μ) : ℕ → Sym ν → V
  | 0, _ => I.bottom
  | n + 1, s => match M.definition? s with
    | some d => d.interpret I (meaning I env M n)
    | none => s.lookup env I.bottom (n + 1)

/-- The module means by a name what the environment does. -/
def Means (I : Interpretation ο ι V) (env : ν → ℕ → V) (M : Module ν δ ο ι μ) (m : ν) : Prop :=
  ∀ n, M.meaning I env (n + 1) (.ext m) = env m (n + 1)

variable {I : Interpretation ο ι V} {env : ν → ℕ → V} {M N : Module ν δ ο ι μ} {s t : Sym ν}
  {d : Def ν δ ο ι} {n : ℕ} {m : ν}

theorem shape?_eq_map : M.shape? s = (M.definition? s).map Def.shape := by
  rw [shape?, shapeIn, definition?, Option.map_map]
  rfl

theorem definition?_eq_none : M.definition? s = none ↔ M.shape? s = none := by
  rw [shape?_eq_map, Option.map_eq_none_iff]

theorem defines_iff_mem : M.defines m = true ↔ ∃ e ∈ M.defs, e.1 = .ext m := by
  simp [defines, shape?, shapeIn]

theorem mem_defs_of_definition? (h : M.definition? s = some d) : (s, d) ∈ M.defs := by
  obtain ⟨⟨t, d'⟩, hfind, rfl⟩ := Option.map_eq_some_iff.1 h
  have ht : t = s := by simpa using List.find?_some hfind
  exact ht ▸ List.mem_of_find?_eq_some hfind

theorem meaning_succ (h : M.definition? s = some d) :
    M.meaning I env (n + 1) s = d.interpret I (M.meaning I env n) := by
  simp only [meaning, h]

theorem meaning_of_undefined (h : M.definition? s = none) :
    M.meaning I env (n + 1) s = s.lookup env I.bottom (n + 1) := by
  simp only [meaning, h]

/-- A definition that was renamed means what it did, where its references do. -/
theorem meaning_of_mapSym {f : Sym ν → Sym ν} (hs : M.definition? s = some d)
    (ht : N.definition? t = some (d.mapSym f))
    (h : ∀ r ∈ d.refs, N.meaning I env n (f r.sym) = M.meaning I env n r.sym) :
    N.meaning I env (n + 1) t = M.meaning I env (n + 1) s := by
  rw [meaning_succ hs, meaning_succ ht, Def.interpret_mapSym]
  exact Def.interpret_congr h

/-- A name that the module does not define, it means as the environment does. -/
theorem means_of_undefined (h : M.defines m = false) : M.Means I env m := by
  refine fun n => meaning_of_undefined (definition?_eq_none.2 ?_)
  simpa [defines] using h

/-! ## Linking -/

section LinkSource

variable {S : Source ν δ ο ι μ}

theorem moved_inj (hs : s.Below M.next) (ht : t.Below M.next) :
    M.moved S s = M.moved S t ↔ s = t := by
  refine ⟨fun h => ?_, congrArg _⟩
  cases s <;> cases t <;> simp only [moved, Sym.privatise, Sym.Below] at h hs ht
  all_goals grind

theorem brought_inj (hs : s.Below S.mod.next) (ht : t.Below S.mod.next) :
    M.brought S s = M.brought S t ↔ s = t := by
  refine ⟨fun h => ?_, congrArg _⟩
  cases s <;> cases t <;>
    simp only [brought, Sym.shift, Sym.privatise, Sym.Below] at h hs ht
  all_goals grind

theorem eq_ext_of_brought_eq_moved (hs : s.Below S.mod.next) (ht : t.Below M.next)
    (h : M.brought S s = M.moved S t) : s = t ∧ ∃ m, t = .ext m := by
  cases s <;> cases t <;>
    simp only [brought, moved, Sym.shift, Sym.privatise, Sym.Below] at h hs ht
  all_goals grind

theorem brought_ext (m : ν) : M.brought S (.ext m) = M.moved S (.ext m) := rfl

theorem defs_linkSource : (M.linkSource S).defs = S.mod.defs.map (renameEntry (M.brought S))
    ++ (M.defs.filter fun e => ¬ (e.1.name?.any S.mod.defines)).map (renameEntry (M.moved S)) := by
  simp only [linkSource, privatise, link, List.map_append, List.map_map]
  congr 1
  · exact List.map_congr_left fun e _ => renameEntry_comp _ _ e

/-- Where a renaming tells a symbol from the others, it carries its definition over. -/
theorem find?_renameEntry {defs : List (Sym ν × Def ν δ ο ι)} {f : Sym ν → Sym ν}
    (hf : ∀ e ∈ defs, f e.1 = t ↔ e.1 = s) :
    ((defs.map (renameEntry f)).find? (·.1 = t)).map (·.2)
      = ((defs.find? (·.1 = s)).map (·.2)).map (Def.mapSym f) := by
  have hp : ∀ e ∈ defs, ((fun e => decide (e.1 = t)) ∘ renameEntry f) e = decide (e.1 = s) :=
    fun e he => by simp only [Function.comp_apply, renameEntry, hf e he]
  rw [List.find?_map, List.find?_congr hp, Option.map_map, Option.map_map]
  rfl

theorem definition?_brought (h : s.Below S.mod.next) (hd : S.mod.definition? s = some d) :
    (M.linkSource S).definition? (M.brought S s) = some (d.mapSym (M.brought S)) := by
  have hfind : ((S.mod.defs.map (renameEntry (M.brought S))).find? (·.1 = M.brought S s)).map
      (·.2) = some (d.mapSym (M.brought S)) := by
    rw [find?_renameEntry fun e he => brought_inj (S.mod.defs_below e he) h]
    exact congrArg (Option.map _) hd
  rw [definition?, defs_linkSource, List.find?_append, Option.map_or, hfind]
  rfl

theorem definition?_moved (h : s.Below M.next) (hs : ¬ s.name?.any S.mod.defines)
    (hd : M.definition? s = some d) :
    (M.linkSource S).definition? (M.moved S s) = some (d.mapSym (M.moved S)) := by
  have hsource : (S.mod.defs.map (renameEntry (M.brought S))).find? (·.1 = M.moved S s)
      = none := by
    rw [List.find?_eq_none]
    rintro _ hmem hmoved
    obtain ⟨e, he, rfl⟩ := List.mem_map.1 hmem
    obtain ⟨heq, m, rfl⟩ := eq_ext_of_brought_eq_moved (S.mod.defs_below e he) h
      (of_decide_eq_true hmoved)
    exact hs (defines_iff_mem.2 ⟨e, he, heq⟩)
  have hown : ((M.defs.filter fun e => ¬ (e.1.name?.any S.mod.defines)).find? (·.1 = s)).map
      (·.2) = some d := by
    have hp : ∀ e ∈ M.defs, decide ((decide (¬ e.1.name?.any S.mod.defines) = true)
        ∧ decide (e.1 = s) = true) = decide (e.1 = s) := fun e _ => by
      by_cases he : e.1 = s
      · simp [he, Bool.not_eq_true _ ▸ hs]
      · simp [he]
    rw [List.find?_filter, List.find?_congr hp]
    exact hd
  rw [definition?, defs_linkSource, List.find?_append, Option.map_or, hsource, Option.map_none,
    Option.none_or, find?_renameEntry fun e he =>
      moved_inj (M.defs_below e (List.mem_filter.1 he).1) h, hown]
  rfl

omit [DecidableEq ν] in
theorem shape?_privatise_binding {σ : Type*} [DecidableEq ν] {b : Binding ν σ} :
    (b.privatise m).shape? = b.shape? := by
  cases b with
  | named m' x => by_cases h : m' = m <;> simp [Binding.privatise, Binding.shape?, h]
  | «local» x => rfl

theorem shape?_binding : (M.binding s).shape? = M.shape? s := by cases s <;> rfl

theorem definition?_moved_eq_none (h : s.Below M.next) (hs : ¬ s.name?.any S.mod.defines)
    (hd : M.definition? s = none) : (M.linkSource S).definition? (M.moved S s) = none := by
  rw [definition?_eq_none] at hd ⊢
  rw [← shape?_binding, binding_moved h, Binding.after, shape?_privatise_binding]
  cases s with
  | ext m =>
    have hS : S.mod.shape? (.ext m) = none := by simpa [Sym.name?, defines] using hs
    simp [binding, Binding.overlaid, Binding.shape?, hd, hS]
  | loc k => simp [binding, Binding.overlaid, Binding.shape?, hd]

theorem definition?_brought_eq_none (h : s.Below S.mod.next) (hd : S.mod.definition? s = none)
    (hs : ∀ m, s = .ext m → M.definition? (.ext m) = none) :
    (M.linkSource S).definition? (M.brought S s) = none := by
  rw [definition?_eq_none] at hd ⊢
  rw [← shape?_binding, binding_brought h, Binding.entering, shape?_privatise_binding]
  cases s with
  | ext m =>
    simp [binding, Binding.underlaid, Binding.shape?, hd, definition?_eq_none.1 (hs m rfl)]
  | loc k => simp [binding, Binding.underlaid, Binding.shape?, hd]

/-- What a local symbol is defined as goes on to refer to what it did. -/
theorem definition?_linkAll_loc (srcs : List (Source ν δ ο ι μ)) {k : ℕ} (hk : k < M.next)
    (hd : M.definition? (.loc k) = some d) :
    (M.linkAll srcs).definition? (.loc k) = some (d.mapSym (M.movedAll srcs)) := by
  induction srcs generalizing M d with
  | nil =>
    have hid := renameEntry_id ((.loc k, d) : Sym ν × Def ν δ ο ι)
    rw [linkAll_nil, movedAll_nil, hd]
    exact congrArg (fun e => some e.2) hid.symm
  | cons S srcs ih =>
    have hk' : k < (M.linkSource S).next := by
      rw [next_linkSource]
      omega
    have hmoved : (M.linkSource S).definition? (.loc k) = some (d.mapSym (M.moved S)) :=
      definition?_moved (s := .loc k) hk (by simp [Sym.name?]) hd
    have hcomp := renameEntry_comp (M.moved S) ((M.linkSource S).movedAll srcs) (.loc k, d)
    rw [linkAll_cons, movedAll_cons, ih hk' hmoved]
    exact congrArg (fun e => some e.2) hcomp

end LinkSource

/-- By each name, the module means what the environment does. -/
def Sound (I : Interpretation ο ι V) (env : ν → ℕ → V) (M : Module ν δ ο ι μ) : Prop :=
  ∀ m, M.Means I env m

end Module

/-- So does the source, but for its entry maybe: that may mean something else, where the module it
is linked into does not mention it. -/
structure Source.Sound (I : Interpretation ο ι V) (env : ν → ℕ → V) (M : Module ν δ ο ι μ)
    (S : Source ν δ ο ι μ) : Prop where
  defines : S.mod.defines S.entry = true
  means : ∀ m, m ≠ S.entry → S.mod.Means I env m
  entry : S.mod.Means I env S.entry ∨ M.mentions S.entry = false

section Sound

variable {I : Interpretation ο ι V} {env : ν → ℕ → V} {M N : Module ν δ ο ι μ}
  {S : Source ν δ ο ι μ} {s : Sym ν} {n : ℕ} {m : ν}

/-- The symbol is not the entry of the source, or the source means by that what all do. -/
def Source.Spares (I : Interpretation ο ι V) (env : ν → ℕ → V) (S : Source ν δ ο ι μ)
    (s : Sym ν) : Prop :=
  s = .ext S.entry → S.mod.Means I env S.entry

namespace Module

theorem mentions_of_ref {d : Def ν δ ο ι} {r : Ref ν δ} (hd : M.definition? s = some d)
    (hr : r ∈ d.refs) (hm : r.sym = .ext m) : M.mentions m = true :=
  mentions_iff.2 (.inr ⟨_, mem_defs_of_definition? hd, .inr ⟨r, hr, hm⟩⟩)

/-- What the environment says of other names than the module's does not matter. -/
theorem meaning_congr_env {env' : ν → ℕ → V}
    (h : ∀ m, M.mentions m = true → ∀ n, env m (n + 1) = env' m (n + 1)) :
    ∀ n s, (∀ m, s = .ext m → M.mentions m = true) →
      M.meaning I env n s = M.meaning I env' n s
  | 0, _, _ => rfl
  | n + 1, s, hs => by
    cases hd : M.definition? s with
    | some d =>
      rw [meaning_succ hd, meaning_succ hd]
      exact Def.interpret_congr fun r hr =>
        meaning_congr_env h n _ fun m hm => mentions_of_ref hd hr hm
    | none =>
      rw [meaning_of_undefined hd, meaning_of_undefined hd]
      cases s with
      | ext m => exact h m (hs m rfl) n
      | loc k => rfl

theorem Sound.congr_env {env' : ν → ℕ → V} (hM : M.Sound I env)
    (h : ∀ m, M.mentions m = true → ∀ n, env m (n + 1) = env' m (n + 1)) : M.Sound I env' := by
  intro m n
  by_cases hm : M.mentions m = true
  · rw [← h m hm n, ← hM m n]
    refine (meaning_congr_env h (n + 1) _ ?_).symm
    rintro _ ⟨⟩
    exact hm
  · exact means_of_undefined (Bool.not_eq_true _ ▸ mt mentions_of_defines hm) n

theorem below_of_ref {d : Def ν δ ο ι} {r : Ref ν δ} (hd : M.definition? s = some d)
    (hr : r ∈ d.refs) : r.sym.Below M.next :=
  M.refs_below _ (mem_defs_of_definition? hd) r hr

theorem spares_of_ref {d : Def ν δ ο ι} {r : Ref ν δ} (h : S.Sound I env M)
    (hd : M.definition? s = some d) (hr : r ∈ d.refs) : S.Spares I env r.sym := by
  intro hentry
  rcases h.entry with hmeans | hno
  · exact hmeans
  · rw [mentions_of_ref hd hr hentry] at hno
    cases hno

/-- What linking keeps: the meaning of the symbols of the module, and of those of the source. -/
def KeepsMeaning (I : Interpretation ο ι V) (env : ν → ℕ → V) (M : Module ν δ ο ι μ)
    (S : Source ν δ ο ι μ) (n : ℕ) : Prop :=
  (∀ s : Sym ν, s.Below M.next → S.Spares I env s →
      (M.linkSource S).meaning I env n (M.moved S s) = M.meaning I env n s)
    ∧ ∀ s : Sym ν, s.Below S.mod.next →
      (M.linkSource S).meaning I env n (M.brought S s) = S.mod.meaning I env n s

/-- One level of a symbol that the source does not override. -/
theorem meaning_moved_succ (hS : S.Sound I env M) (ih : KeepsMeaning I env M S n)
    (hs : s.Below M.next) (hover : ¬ s.name?.any S.mod.defines) :
    (M.linkSource S).meaning I env (n + 1) (M.moved S s) = M.meaning I env (n + 1) s := by
  cases hd : M.definition? s with
  | some d =>
    exact meaning_of_mapSym hd (definition?_moved hs hover hd) fun r hr =>
      ih.1 _ (below_of_ref hd hr) (spares_of_ref hS hd hr)
  | none =>
    rw [meaning_of_undefined hd, meaning_of_undefined (definition?_moved_eq_none hs hover hd)]
    cases s with
    | ext m =>
      have hm : m ≠ S.entry := by
        rintro rfl
        exact hover hS.defines
      simp only [moved, Sym.privatise, if_neg hm]
    | loc k => rfl

theorem meaning_brought_succ (hM : M.Sound I env) (hS : S.Sound I env M)
    (ih : KeepsMeaning I env M S n) (hs : s.Below S.mod.next) :
    (M.linkSource S).meaning I env (n + 1) (M.brought S s) = S.mod.meaning I env (n + 1) s := by
  cases hd : S.mod.definition? s with
  | some d =>
    exact meaning_of_mapSym hd (definition?_brought hs hd) fun r hr => ih.2 _ (below_of_ref hd hr)
  | none =>
    rw [meaning_of_undefined hd]
    cases s with
    | ext m =>
      -- the module may define what the source only declares
      have hover : ¬ (Sym.ext m).name?.any S.mod.defines := by
        simpa [Sym.name?, defines] using definition?_eq_none.1 hd
      rw [brought_ext, meaning_moved_succ (s := .ext m) hS ih trivial hover, hM m n]
      rfl
    | loc k =>
      rw [meaning_of_undefined (definition?_brought_eq_none hs hd (by simp))]
      rfl

/-- Linking keeps every meaning, where the modules mean the same by the names that they share. -/
theorem keepsMeaning (hM : M.Sound I env) (hS : S.Sound I env M) :
    ∀ n, KeepsMeaning I env M S n
  | 0 => ⟨fun _ _ _ => rfl, fun _ _ => rfl⟩
  | n + 1 => by
    have ih := keepsMeaning hM hS n
    refine ⟨fun s hs hspares => ?_, fun s hs => meaning_brought_succ hM hS ih hs⟩
    by_cases hover : s.name?.any S.mod.defines
    · cases s with
      | loc k => simp [Sym.name?] at hover
      | ext m =>
        -- the definition of the source has taken the place of the module's
        have hmeans : S.mod.Means I env m := by
          by_cases hm : m = S.entry
          · exact hm ▸ hspares (by rw [hm])
          · exact hS.means m hm
        rw [← brought_ext, meaning_brought_succ (s := .ext m) hM hS ih trivial, hmeans n, hM m n]
    · exact meaning_moved_succ hS ih hs hover

theorem Sound.linkSource (hM : M.Sound I env) (hS : S.Sound I env M) :
    (M.linkSource S).Sound I env := by
  intro m n
  by_cases hm : m = S.entry
  · subst hm
    -- nothing is left that has the name
    refine means_of_undefined ?_ n
    rw [← Bool.not_eq_true]
    intro h
    have hno : (M.linkSource S).mentions S.entry = false := mentions_privatise
    rw [mentions_of_defines h] at hno
    cases hno
  · have hmoved : M.moved S (.ext m) = .ext m := by simp only [moved, Sym.privatise, if_neg hm]
    rw [← hM m n, ← (keepsMeaning hM hS (n + 1)).1 (.ext m) trivial fun h => absurd
      (Sym.ext.inj h) hm, hmoved]

/-! ### Many sources -/

/-- Each source is sound when its turn comes. -/
def SoundAll (I : Interpretation ο ι V) (env : ν → ℕ → V) :
    Module ν δ ο ι μ → List (Source ν δ ο ι μ) → Prop
  | _, [] => True
  | M, S :: srcs => S.Sound I env M ∧ SoundAll I env (M.linkSource S) srcs

variable {srcs pre post : List (Source ν δ ο ι μ)}

theorem Sound.linkAll (hM : M.Sound I env) (h : M.SoundAll I env srcs) :
    (M.linkAll srcs).Sound I env := by
  induction srcs generalizing M with
  | nil => exact hM
  | cons S srcs ih => exact ih (hM.linkSource h.1) h.2

theorem soundAll_append :
    M.SoundAll I env (pre ++ srcs)
      ↔ M.SoundAll I env pre ∧ (M.linkAll pre).SoundAll I env srcs := by
  induction pre generalizing M with
  | nil => exact (and_iff_right trivial).symm
  | cons S pre ih => rw [List.cons_append, SoundAll, SoundAll, ih, and_assoc, linkAll_cons]

/-- The sources are sound where each defines its entry, means by other names what the environment
does, and means that by its entry too, unless the entry is not mentioned by what comes before. -/
theorem soundAll_of (hdef : ∀ S ∈ srcs, S.mod.defines S.entry = true)
    (hmeans : ∀ S ∈ srcs, ∀ m, m ≠ S.entry → S.mod.Means I env m)
    (hentry : ∀ pre S post, srcs = pre ++ S :: post → S.mod.Means I env S.entry
      ∨ M.mentions S.entry = false
        ∧ ∀ S' ∈ pre, S'.mod.mentions S.entry = false ∨ S'.entry = S.entry) :
    M.SoundAll I env srcs := by
  induction srcs generalizing M with
  | nil => trivial
  | cons S srcs ih =>
    rw [List.forall_mem_cons] at hdef hmeans
    refine ⟨⟨hdef.1, hmeans.1, (hentry [] S srcs rfl).imp_right And.left⟩,
      ih hdef.2 hmeans.2 fun pre S' post hsrcs => ?_⟩
    refine (hentry (S :: pre) S' post (by rw [hsrcs]; rfl)).imp_right fun ⟨hM, hpre⟩ => ?_
    rw [List.forall_mem_cons] at hpre
    refine ⟨?_, hpre.2⟩
    rcases hpre.1 with hS | hS
    · exact mentions_linkSource hM hS
    · exact hS ▸ mentions_privatise

/-! ### Local symbols -/

theorem meaning_linkSource_loc (hM : M.Sound I env) (hS : S.Sound I env M) {k : ℕ}
    (hk : k < M.next) :
    (M.linkSource S).meaning I env n (.loc k) = M.meaning I env n (.loc k) :=
  (keepsMeaning hM hS n).1 (.loc k) hk nofun

theorem meaning_linkAll_loc (hM : M.Sound I env) (h : M.SoundAll I env srcs) {k : ℕ}
    (hk : k < M.next) : (M.linkAll srcs).meaning I env n (.loc k) = M.meaning I env n (.loc k) := by
  induction srcs generalizing M with
  | nil => rfl
  | cons S srcs ih =>
    have hk' : k < (M.linkSource S).next := by
      rw [next_linkSource]
      omega
    rw [linkAll_cons, ih (hM.linkSource h.1) h.2 hk', meaning_linkSource_loc hM h.1 hk]

/-- The entry of a source is found under a number of its own. -/
theorem meaning_linkSource_entry (hM : M.Sound I env) (hS : S.Sound I env M) :
    (M.linkSource S).meaning I env n (.loc (M.next + S.mod.next))
      = S.mod.meaning I env n (.ext S.entry) := by
  have hentry : M.brought S (.ext S.entry) = .loc (M.next + S.mod.next) := by
    simp only [brought, Sym.shift, Sym.privatise, if_pos]
  rw [← hentry, (keepsMeaning hM hS n).2 (.ext S.entry) trivial]

theorem next_le_linkAll : M.next ≤ (M.linkAll srcs).next := by
  induction srcs generalizing M with
  | nil => exact Nat.le_refl _
  | cons S srcs ih =>
    refine Nat.le_trans ?_ (ih (M := M.linkSource S))
    rw [next_linkSource]
    omega

/-- The symbol is a local one that means what the entry of the source does there. -/
def HoldsEntry (I : Interpretation ο ι V) (env : ν → ℕ → V) (M : Module ν δ ο ι μ)
    (s : Sym ν) (S : Source ν δ ο ι μ) : Prop :=
  ∃ k < M.next, s = .loc k ∧ ∀ n, M.meaning I env n s = S.mod.meaning I env n (.ext S.entry)

theorem holdsEntry_linkSource (hM : M.Sound I env) (hS : S.Sound I env M) :
    (M.linkSource S).HoldsEntry I env (.loc (M.next + S.mod.next)) S :=
  ⟨_, Nat.lt_succ_self _, rfl, fun _ => meaning_linkSource_entry hM hS⟩

theorem HoldsEntry.linkAll (h : M.HoldsEntry I env s S) (hM : M.Sound I env)
    (hsrcs : M.SoundAll I env srcs) : (M.linkAll srcs).HoldsEntry I env s S := by
  obtain ⟨k, hk, rfl, hmeans⟩ := h
  exact ⟨k, hk.trans_le next_le_linkAll, rfl, fun n =>
    (meaning_linkAll_loc hM hsrcs hk).trans (hmeans n)⟩

/-! ### Names -/

/-- The name is that of an external symbol; or of local ones, which mean what the environment does
by it. -/
def Finds (I : Interpretation ο ι V) (env : ν → ℕ → V) (M : Module ν δ ο ι μ) (m : ν) : Prop :=
  M.mentions m = true ∨ (∃ k, (m, k) ∈ M.localNames) ∧ ∀ k, (m, k) ∈ M.localNames →
    k < M.next ∧ ∀ n, M.meaning I env (n + 1) (.loc k) = env m (n + 1)

theorem Finds.means (h : M.Finds I env m) (hM : M.Sound I env) (hs : M.getNamedValue m = some s) :
    s.Below M.next ∧ ∀ n, M.meaning I env (n + 1) s = env m (n + 1) := by
  unfold getNamedValue at hs
  split_ifs at hs with hmentions
  · cases hs
    exact ⟨trivial, hM m⟩
  · obtain ⟨⟨m', k⟩, hfind, rfl⟩ := Option.map_eq_some_iff.1 hs
    obtain rfl : m' = m := by simpa using List.find?_some hfind
    exact (h.resolve_left hmentions).2 k (List.mem_of_find?_eq_some hfind)

/-- The entry of a source is found under its name: it takes the name from any other local symbol. -/
theorem finds_linkSource_entry (hM : M.Sound I env) (hS : S.Sound I env M)
    (hentry : S.mod.Means I env S.entry) (h : M.Finds I env S.entry) :
    (M.linkSource S).Finds I env S.entry := by
  have hmentions : (M.link S.mod).mentions S.entry = true :=
    mentions_of_defines (defines_link hS.defines)
  have hnames : (M.linkSource S).localNames
      = (S.entry, M.next + S.mod.next) :: (M.link S.mod).localNames := if_pos hmentions
  have hlink : ∀ k, (S.entry, k) ∉ (M.link S.mod).localNames := by
    intro k hk
    rcases List.mem_append.1 hk with hk | hk
    · simp [mentions_of_defines hS.defines] at hk
    · -- a local symbol of the source has no name that is in use
      obtain ⟨e, he, heq⟩ := List.mem_map.1 hk
      obtain ⟨-, hfree⟩ := List.mem_filter.1 he
      obtain ⟨hno, hlocal⟩ := of_decide_eq_true hfree
      rw [(Prod.mk.inj heq).1] at hno hlocal
      rcases h with h | ⟨⟨j, hj⟩, -⟩
      · exact hno h
      · exact hlocal _ hj rfl
  refine .inr ⟨⟨_, hnames ▸ List.mem_cons_self⟩, fun k hk => ?_⟩
  rw [hnames, List.mem_cons, or_iff_left (hlink k)] at hk
  cases hk
  exact ⟨Nat.lt_succ_self _, fun n => (meaning_linkSource_entry hM hS).trans (hentry n)⟩

/-- Another name is found as before, or is that of an external symbol of the source. -/
theorem finds_linkSource_of_ne (hM : M.Sound I env) (hS : S.Sound I env M) (hm : m ≠ S.entry)
    (h : M.Finds I env m) : (M.linkSource S).Finds I env m := by
  by_cases hmentions : M.mentions m = true ∨ S.mod.mentions m = true
  · exact .inl (mentions_linkSource_iff.2 ⟨hm, hmentions⟩)
  obtain ⟨hMm, hSm⟩ := not_or.1 hmentions
  obtain ⟨⟨j, hj⟩, hmeans⟩ := h.resolve_left hMm
  have hlocal (k : ℕ) : (m, k) ∈ (M.linkSource S).localNames ↔ (m, k) ∈ M.localNames := by
    by_cases hk : k < M.next
    · simp [mem_localNames_linkSource hk, Bool.not_eq_true _ ▸ hSm]
    · refine ⟨fun hmem => ?_, fun hmem => absurd (hmeans k hmem).1 hk⟩
      have hmem : (m, k) ∈ (M.link S.mod).localNames := by
        rw [linkSource, privatise] at hmem
        simp only at hmem
        split_ifs at hmem
        · refine (List.mem_cons.1 hmem).resolve_left ?_
          rintro ⟨⟩
          exact hm rfl
        · exact hmem
      rcases List.mem_append.1 hmem with hmem | hmem
      · exact (List.mem_filter.1 hmem).1
      · obtain ⟨e, he, heq⟩ := List.mem_map.1 hmem
        obtain ⟨-, hfree⟩ := List.mem_filter.1 he
        exact absurd (Prod.mk.inj heq).1.symm ((of_decide_eq_true hfree).2 _ hj)
  refine .inr ⟨⟨j, (hlocal j).2 hj⟩, fun k hk => ?_⟩
  obtain ⟨hlt, hmeans⟩ := hmeans k ((hlocal k).1 hk)
  refine ⟨by rw [next_linkSource]; omega, fun n => ?_⟩
  rw [meaning_linkSource_loc hM hS hlt, hmeans]

theorem Finds.linkAll (h : M.Finds I env m) (hM : M.Sound I env) (hsrcs : M.SoundAll I env srcs)
    (hentry : ∀ S ∈ srcs, S.mod.Means I env S.entry) : (M.linkAll srcs).Finds I env m := by
  induction srcs generalizing M with
  | nil => exact h
  | cons S srcs ih =>
    rw [List.forall_mem_cons] at hentry
    refine ih ?_ (hM.linkSource hsrcs.1) hsrcs.2 hentry.2
    by_cases hm : m = S.entry
    · subst hm
      exact finds_linkSource_entry hM hsrcs.1 hentry.1 h
    · exact finds_linkSource_of_ne hM hsrcs.1 hm h

/-- The module is sound, and so are the names that its local symbols hold. -/
structure SoundNames (I : Interpretation ο ι V) (env : ν → ℕ → V) (M : Module ν δ ο ι μ) :
    Prop where
  sound : M.Sound I env
  locals : ∀ e ∈ M.localNames, e.2 < M.next
    ∧ ∀ n, M.meaning I env (n + 1) (.loc e.2) = env e.1 (n + 1)

/-! ## Other changes -/

theorem meaning_of_defs (h : M.defs = N.defs) :
    ∀ n s, M.meaning I env n s = N.meaning I env n s
  | 0, _ => rfl
  | n + 1, s => by
    have hdef : M.definition? s = N.definition? s := by rw [definition?, definition?, h]
    have ih : M.meaning I env n = N.meaning I env n := funext (meaning_of_defs h n)
    simp only [meaning, hdef, ih]

/-- An external symbol that is defined can be made local. -/
theorem meaning_privatise (hm : M.defines m = true) : ∀ n s, s.Below M.next →
    (M.privatise m).meaning I env n (s.privatise m M.next) = M.meaning I env n s
  | 0, _, _ => rfl
  | n + 1, s, hs => by
    have hinj (e : Sym ν × Def ν δ ο ι) (he : e ∈ M.defs) :
        e.1.privatise m M.next = s.privatise m M.next ↔ e.1 = s := by
      have he' := M.defs_below e he
      refine ⟨fun h => ?_, congrArg _⟩
      generalize e.1 = t at h he'
      cases s <;> cases t <;> simp only [Sym.privatise, Sym.Below] at h hs he'
      all_goals grind
    have hdef : (M.privatise m).definition? (s.privatise m M.next)
        = (M.definition? s).map (Def.mapSym (Sym.privatise m M.next)) := find?_renameEntry hinj
    cases hd : M.definition? s with
    | some d =>
      rw [hd] at hdef
      exact meaning_of_mapSym hd hdef fun r hr => meaning_privatise hm n _ (below_of_ref hd hr)
    | none =>
      rw [hd] at hdef
      rw [meaning_of_undefined hd, meaning_of_undefined hdef]
      cases s with
      | loc k => rfl
      | ext m' =>
        have hne : m' ≠ m := by
          rintro rfl
          rw [definition?_eq_none] at hd
          simp [defines, hd] at hm
        simp only [Sym.privatise, if_neg hne]

/-- A definition under a name that nothing mentions changes no other meaning. -/
theorem meaning_define {x : Def ν δ ο ι} (hm : M.mentions m = false) : ∀ n s, s ≠ .ext m →
    (M.define m x).meaning I env n s = M.meaning I env n s
  | 0, _, _ => rfl
  | n + 1, s, hs => by
    have hdef : (M.define m x).definition? s = M.definition? s := by
      simp [definition?, define, Ne.symm hs]
    cases hd : M.definition? s with
    | none => rw [meaning_of_undefined hd, meaning_of_undefined (hdef.trans hd)]
    | some d =>
      rw [meaning_succ hd, meaning_succ (hdef.trans hd)]
      refine Def.interpret_congr fun r hr => meaning_define hm n _ fun hr' => ?_
      rw [mentions_of_ref hd hr hr'] at hm
      cases hm

end Module

end Sound

/-! ## Simulations -/

section Simulation

variable {ν' δ' μ' : Type*} [DecidableEq ν'] {I : Interpretation ο ι V} {env : ν → ℕ → V}
  {env' : ν' → ℕ → V} {M : Module ν δ ο ι μ} {N : Module ν' δ' ο ι μ'}
  {R : Sym ν → Sym ν' → Prop}

structure Inst.Similar (R : Sym ν → Sym ν' → Prop) (i : Inst ν δ ο) (i' : Inst ν' δ' ο) :
    Prop where
  op : i.op = i'.op
  refs : List.Forall₂ (fun r r' => R r.sym r'.sym) i.refs i'.refs

/-- The definitions do the same with symbols that are related. -/
structure Def.Similar (I : Interpretation ο ι V) (R : Sym ν → Sym ν' → Prop) (d : Def ν δ ο ι)
    (d' : Def ν' δ' ο ι) : Prop where
  info : I.apply d.info = I.apply d'.info
  body : List.Forall₂ (Inst.Similar R) d.body d'.body

omit [DecidableEq ν] [DecidableEq ν'] in
theorem Def.Similar.interpret {d : Def ν δ ο ι} {d' : Def ν' δ' ο ι} {f : Sym ν → V}
    {g : Sym ν' → V} (h : d.Similar I R d') (hfg : ∀ s t, R s t → f s = g t) :
    d.interpret I f = d'.interpret I g := by
  have hbody : d.body.map (fun i => (i.op, i.refs.map fun r => f r.sym))
      = d'.body.map fun i => (i.op, i.refs.map fun r => g r.sym) := by
    rw [← List.forall₂_eq_eq_eq, List.forall₂_map_left_iff, List.forall₂_map_right_iff]
    refine h.body.imp fun i i' ⟨hop, hrefs⟩ => Prod.ext hop ?_
    show i.refs.map (fun r => f r.sym) = i'.refs.map fun r => g r.sym
    rw [← List.forall₂_eq_eq_eq, List.forall₂_map_left_iff, List.forall₂_map_right_iff]
    exact hrefs.imp fun _ _ hr => hfg _ _ hr
  rw [Def.interpret, Def.interpret, h.info, hbody]

/-- Symbols that are related have definitions that do the same; or what the first means in its
environment is what the second means in its module. -/
structure Module.Simulates (I : Interpretation ο ι V) (env : ν → ℕ → V) (env' : ν' → ℕ → V)
    (M : Module ν δ ο ι μ) (N : Module ν' δ' ο ι μ') (R : Sym ν → Sym ν' → Prop) : Prop where
  defined : ∀ s t d, R s t → M.definition? s = some d →
    ∃ d', N.definition? t = some d' ∧ d.Similar I R d'
  undefined : ∀ s t, R s t → M.definition? s = none → ∀ n,
    s.lookup env I.bottom (n + 1) = N.meaning I env' (n + 1) t

theorem Module.Simulates.meaning (h : M.Simulates I env env' N R) : ∀ n s t, R s t →
    M.meaning I env n s = N.meaning I env' n t
  | 0, _, _, _ => rfl
  | n + 1, s, t, hst => by
    cases hd : M.definition? s with
    | some d =>
      obtain ⟨d', hd', hsimilar⟩ := h.defined s t d hst hd
      rw [meaning_succ hd, meaning_succ hd', hsimilar.interpret (h.meaning n)]
    | none => rw [meaning_of_undefined hd, h.undefined s t hst hd n]

end Simulation

end

end Linker
