import Mathlib.Data.List.Basic
import Mathlib.Data.Option.Basic

/-!
# Modules and linking

A module defines symbols, and its definitions refer to symbols. An external symbol is known by
its name, which one module shares with any other it is linked with; a local one is the module's
own, and is known by a number. `link` lets the source's definitions override the destination's
and keeps local symbols apart; `privatise` makes an external symbol local.

What instructions do (`ο`), what else is known of a definition (`ι`) and the metadata (`μ`) are
left open. So is what a reference stands for in the program it comes from (`δ`): linking carries
it along and does not look at it, so that one may ask of a linked module whether its references
still reach what they stand for.
-/

namespace Linker

inductive Sym (ν : Type*)
  | ext (n : ν)
  | loc (k : ℕ)
  deriving DecidableEq, Repr

namespace Sym

variable {ν : Type*}

/-- A local symbol's number is less than `b`. -/
def Below (b : ℕ) : Sym ν → Prop
  | ext _ => True
  | loc k => k < b

/-- Local symbols renumbered, from `b` on. -/
def shift (b : ℕ) : Sym ν → Sym ν
  | ext n => ext n
  | loc k => loc (k + b)

/-- The external symbol `n` made local, under the number `k`. -/
def privatise [DecidableEq ν] (n : ν) (k : ℕ) : Sym ν → Sym ν
  | ext m => if m = n then loc k else ext m
  | loc j => loc j

def name? : Sym ν → Option ν
  | ext n => some n
  | loc _ => none

end Sym

structure Ref (ν δ : Type*) where
  sym : Sym ν
  /-- What the reference stands for. -/
  denotes : δ
  deriving DecidableEq, Repr

structure Inst (ν δ ο : Type*) where
  op : ο
  refs : List (Ref ν δ)
  deriving DecidableEq, Repr

structure Def (ν δ ο ι : Type*) where
  info : ι
  body : List (Inst ν δ ο)
  deriving DecidableEq, Repr

structure Shape (δ ο ι : Type*) where
  info : ι
  body : List (ο × List δ)
  deriving DecidableEq, Repr

section Def

variable {ν δ ο ι : Type*}

def Inst.mapSym (f : Sym ν → Sym ν) (i : Inst ν δ ο) : Inst ν δ ο :=
  ⟨i.op, i.refs.map fun r => ⟨f r.sym, r.denotes⟩⟩

def Def.refs (d : Def ν δ ο ι) : List (Ref ν δ) := d.body.flatMap Inst.refs

def Def.mapSym (f : Sym ν → Sym ν) (d : Def ν δ ο ι) : Def ν δ ο ι :=
  ⟨d.info, d.body.map (Inst.mapSym f)⟩

/-- A definition without the symbols its references go through. -/
def Def.shape (d : Def ν δ ο ι) : Shape δ ο ι :=
  ⟨d.info, d.body.map fun i => (i.op, i.refs.map (·.denotes))⟩

@[simp] theorem Def.shape_mapSym (f : Sym ν → Sym ν) (d : Def ν δ ο ι) :
    (d.mapSym f).shape = d.shape := by
  simp [shape, mapSym, Inst.mapSym, Function.comp_def]

theorem Def.refs_mapSym (f : Sym ν → Sym ν) (d : Def ν δ ο ι) :
    (d.mapSym f).refs = d.refs.map fun r => ⟨f r.sym, r.denotes⟩ := by
  simp only [refs, mapSym, List.flatMap_map, List.map_flatMap, Inst.mapSym]

/-- What the instructions do, changed; not what they refer to. -/
def Def.mapOps (f : ο → ο) (d : Def ν δ ο ι) : Def ν δ ο ι :=
  ⟨d.info, d.body.map fun i => ⟨f i.op, i.refs⟩⟩

@[simp] theorem Def.refs_mapOps (f : ο → ο) (d : Def ν δ ο ι) : (d.mapOps f).refs = d.refs := by
  simp [refs, mapOps, List.flatMap_map]

/-- Local symbols among the references have smaller numbers. -/
def bound : List (Ref ν δ) → ℕ
  | [] => 0
  | r :: rs => max (match r.sym with
    | .ext _ => 0
    | .loc k => k + 1) (bound rs)

end Def

structure Module (ν δ ο ι μ : Type*) where
  defs : List (Sym ν × Def ν δ ο ι)
  /-- Names of external symbols that the module has whether they are used or not. -/
  declared : List ν
  /-- Local symbols have smaller numbers. -/
  next : ℕ
  /-- Names held by local symbols. -/
  localNames : List (ν × ℕ)
  /-- The operands of the module's metadata node, if it has the node. -/
  metadata : Option (List μ)
  defs_below : ∀ e ∈ defs, e.1.Below next
  refs_below : ∀ e ∈ defs, ∀ r ∈ e.2.refs, r.sym.Below next

namespace Module

variable {ν δ ο ι μ : Type*} [DecidableEq ν]

def shapeIn (defs : List (Sym ν × Def ν δ ο ι)) (s : Sym ν) : Option (Shape δ ο ι) :=
  (defs.find? (·.1 = s)).map (·.2.shape)

/-- The definition of a symbol, if it is defined. -/
def shape? (M : Module ν δ ο ι μ) (s : Sym ν) : Option (Shape δ ο ι) := shapeIn M.defs s

def defines (M : Module ν δ ο ι μ) (n : ν) : Bool := (M.shape? (.ext n)).isSome

/-- The names of the external symbols, defined or only declared. -/
def names (M : Module ν δ ο ι μ) : List ν :=
  M.declared ++ M.defs.flatMap fun e => e.1.name?.toList ++ e.2.refs.filterMap (·.sym.name?)

def mentions (M : Module ν δ ο ι μ) (n : ν) : Bool := n ∈ M.names

def getNamedValue (M : Module ν δ ο ι μ) (n : ν) : Option (Sym ν) :=
  if M.mentions n then some (.ext n) else (M.localNames.find? (·.1 = n)).map (.loc ·.2)

/-- Every symbol of a definition renamed. -/
def renameEntry (f : Sym ν → Sym ν) (e : Sym ν × Def ν δ ο ι) : Sym ν × Def ν δ ο ι :=
  (f e.1, e.2.mapSym f)

end Module

section Below

variable {ν : Type*} {s : Sym ν} {b c : ℕ}

theorem Sym.Below.mono (h : s.Below b) (hbc : b ≤ c) : s.Below c := by
  cases s with
  | ext n => trivial
  | loc k => exact Nat.lt_of_lt_of_le h hbc

theorem Sym.Below.shift (h : s.Below b) (c : ℕ) : (s.shift c).Below (c + b) := by
  cases s with
  | ext n => trivial
  | loc k =>
    have : k < b := h
    show k + c < c + b
    omega

theorem Sym.Below.privatise [DecidableEq ν] (h : s.Below b) (n : ν) :
    (s.privatise n b).Below (b + 1) := by
  cases s with
  | ext m =>
    simp only [Sym.privatise]
    split
    · exact Nat.lt_succ_self b
    · trivial
  | loc k => exact Nat.lt_succ_of_lt h

end Below

namespace Module

variable {ν δ ο ι μ : Type*} [DecidableEq ν]

omit [DecidableEq ν] in
theorem refs_renameEntry {f : Sym ν → Sym ν} {e : Sym ν × Def ν δ ο ι} {r : Ref ν δ} :
    r ∈ (renameEntry f e).2.refs ↔ ∃ r' ∈ e.2.refs, ⟨f r'.sym, r'.denotes⟩ = r := by
  simp [renameEntry, Def.refs_mapSym]

def appendMetadata : Option (List μ) → Option (List μ) → Option (List μ)
  | some ms, some ms' => some (ms ++ ms')
  | some ms, none => some ms
  | none, ms => ms

/-- The definitions of `S` join those of `M`, and override them. What only these referred to is
still declared. -/
def link (M S : Module ν δ ο ι μ) : Module ν δ ο ι μ where
  defs := S.defs.map (renameEntry (Sym.shift M.next))
    ++ M.defs.filter fun e => ¬ (e.1.name?.any S.defines)
  declared := M.names ++ S.declared
  next := M.next + S.next
  localNames := M.localNames.filter (¬ S.mentions ·.1)
    ++ (S.localNames.filter fun e => ¬ M.mentions e.1 ∧ ∀ e' ∈ M.localNames, e'.1 ≠ e.1).map
      fun e => (e.1, e.2 + M.next)
  metadata := appendMetadata M.metadata S.metadata
  defs_below := by
    intro e he
    rcases List.mem_append.1 he with he | he
    · obtain ⟨e₀, he₀, rfl⟩ := List.mem_map.1 he
      exact (S.defs_below e₀ he₀).shift _
    · exact (M.defs_below e (List.mem_filter.1 he).1).mono (Nat.le_add_right _ _)
  refs_below := by
    intro e he r hr
    rcases List.mem_append.1 he with he | he
    · obtain ⟨e₀, he₀, rfl⟩ := List.mem_map.1 he
      obtain ⟨r₀, hr₀, rfl⟩ := refs_renameEntry.1 hr
      exact (S.refs_below e₀ he₀ r₀ hr₀).shift _
    · exact (M.refs_below e (List.mem_filter.1 he).1 r hr).mono (Nat.le_add_right _ _)

/-- The external symbol `n`, if there is one, becomes local and keeps its name. -/
def privatise (M : Module ν δ ο ι μ) (n : ν) : Module ν δ ο ι μ where
  defs := M.defs.map (renameEntry (Sym.privatise n M.next))
  declared := M.declared.filter (· ≠ n)
  next := M.next + 1
  localNames := if M.mentions n then (n, M.next) :: M.localNames else M.localNames
  metadata := M.metadata
  defs_below := by
    intro e he
    obtain ⟨e₀, he₀, rfl⟩ := List.mem_map.1 he
    exact (M.defs_below e₀ he₀).privatise n
  refs_below := by
    intro e he r hr
    obtain ⟨e₀, he₀, rfl⟩ := List.mem_map.1 he
    obtain ⟨r₀, hr₀, rfl⟩ := refs_renameEntry.1 hr
    exact (M.refs_below e₀ he₀ r₀ hr₀).privatise n

omit [DecidableEq ν] in
theorem below_bound : ∀ {rs : List (Ref ν δ)} {r : Ref ν δ}, r ∈ rs → r.sym.Below (bound rs)
  | _ :: _, r, h => by
    rcases List.mem_cons.1 h with rfl | h
    · refine Sym.Below.mono ?_ (Nat.le_max_left _ _)
      cases r.sym with
      | ext n => trivial
      | loc k => exact Nat.lt_succ_self k
    · exact (below_bound h).mono (Nat.le_max_right _ _)

def empty : Module ν δ ο ι μ where
  defs := []
  declared := []
  next := 0
  localNames := []
  metadata := none
  defs_below := by simp
  refs_below := by simp

/-- An external definition is added, which takes the name `n` from any local one. -/
def define (M : Module ν δ ο ι μ) (n : ν) (d : Def ν δ ο ι) : Module ν δ ο ι μ where
  defs := (.ext n, d) :: M.defs
  declared := M.declared
  next := max M.next (bound d.refs)
  localNames := M.localNames.filter (·.1 ≠ n)
  metadata := M.metadata
  defs_below := by
    intro e he
    rcases List.mem_cons.1 he with rfl | he
    · trivial
    · exact (M.defs_below e he).mono (Nat.le_max_left _ _)
  refs_below := by
    intro e he r hr
    rcases List.mem_cons.1 he with rfl | he
    · exact (below_bound hr).mono (Nat.le_max_right _ _)
    · exact (M.refs_below e he r hr).mono (Nat.le_max_left _ _)

/-- What the instructions of one definition do is changed; what they refer to is not. -/
def mapOps (M : Module ν δ ο ι μ) (s : Sym ν) (f : ο → ο) : Module ν δ ο ι μ where
  defs := M.defs.map fun e => if e.1 = s then (e.1, e.2.mapOps f) else e
  declared := M.declared
  next := M.next
  localNames := M.localNames
  metadata := M.metadata
  defs_below := by
    intro e he
    obtain ⟨e₀, he₀, rfl⟩ := List.mem_map.1 he
    have := M.defs_below e₀ he₀
    split <;> exact this
  refs_below := by
    intro e he r hr
    obtain ⟨e₀, he₀, rfl⟩ := List.mem_map.1 he
    refine M.refs_below e₀ he₀ r ?_
    split at hr
    · simpa using hr
    · exact hr

theorem mapOps_mapOps (M : Module ν δ ο ι μ) (s : Sym ν) (f g : ο → ο) :
    (M.mapOps s f).mapOps s g = M.mapOps s (g ∘ f) := by
  have hdefs : ((M.mapOps s f).mapOps s g).defs = (M.mapOps s (g ∘ f)).defs := by
    simp only [mapOps, List.map_map]
    refine List.map_congr_left fun e _ => ?_
    by_cases h : e.1 = s
    · simp [h, Def.mapOps]
    · simp [h]
  simpa only [mapOps, mk.injEq, and_true] using hdefs

theorem mapOps_eq_self {M : Module ν δ ο ι μ} {s : Sym ν} {f : ο → ο}
    (h : ∀ e ∈ M.defs, e.1 = s → ∀ i ∈ e.2.body, f i.op = i.op) : M.mapOps s f = M := by
  have hdefs : (M.mapOps s f).defs = M.defs := by
    refine (List.map_congr_left fun e he => ?_).trans (List.map_id M.defs)
    split
    · rename_i hs
      have hbody : (e.2.mapOps f).body = e.2.body := by
        refine (List.map_congr_left fun i hi => ?_).trans (List.map_id e.2.body)
        rw [h e he hs i hi]
        rfl
      have hdef : e.2.mapOps f = e.2 := congrArg (Def.mk e.2.info) hbody
      rw [hdef]
      rfl
    · rfl
  cases M
  simpa only [mapOps, mk.injEq, and_true] using hdefs

end Module

/-- A module to be linked into another one, where one of its symbols is made private. -/
structure Source (ν δ ο ι μ : Type*) where
  mod : Module ν δ ο ι μ
  entry : ν

namespace Module

variable {ν δ ο ι μ : Type*} [DecidableEq ν]

/-- The source is linked in, and its entry is private from then on. -/
def linkSource (M : Module ν δ ο ι μ) (S : Source ν δ ο ι μ) : Module ν δ ο ι μ :=
  (M.link S.mod).privatise S.entry

def linkAll (M : Module ν δ ο ι μ) (srcs : List (Source ν δ ο ι μ)) : Module ν δ ο ι μ :=
  srcs.foldl linkSource M

end Module

end Linker
