import Mathlib.Data.List.Basic
import Mathlib.Logic.Relation

/-!
# Depth-first traversal

A traversal remembers the nodes it has seen, and goes on from a node when it sees it for the first
time. Where there are finitely many nodes it ends (`exists_visit`), and what it has seen then is
what can be reached (`mem_visit_iff`).
-/

namespace Traverse

variable {α : Type*} (succ : α → List α)

/-- There is a path from one node to the other. -/
def Reaches : α → α → Prop := Relation.ReflTransGen fun a b => b ∈ succ a

/-- The nodes `as` have been visited: all that was added was reached from one of them, and what
comes after it was seen too. -/
structure Visited (as seen seen' : List α) : Prop where
  subset : seen ⊆ seen'
  mem : ∀ a ∈ as, a ∈ seen'
  reached : ∀ b ∈ seen', b ∈ seen ∨ ∃ a ∈ as, Reaches succ a b
  closed : ∀ b ∈ seen', b ∈ seen ∨ ∀ c ∈ succ b, c ∈ seen'

variable {succ} {a b : α} {as bs seen seen' seen'' : List α} {n : ℕ}

theorem Visited.nil : Visited succ [] seen seen where
  subset := List.Subset.refl _
  mem := fun _ ha => absurd ha List.not_mem_nil
  reached := fun _ hb => .inl hb
  closed := fun _ hb => .inl hb

theorem Visited.of_mem (h : a ∈ seen) : Visited succ [a] seen seen where
  subset := List.Subset.refl _
  mem := fun _ hb => List.mem_singleton.1 hb ▸ h
  reached := fun _ hb => .inl hb
  closed := fun _ hb => .inl hb

/-- One visit after another. -/
theorem Visited.append (h : Visited succ as seen seen') (h' : Visited succ bs seen' seen'') :
    Visited succ (as ++ bs) seen seen'' where
  subset := List.Subset.trans h.subset h'.subset
  mem := by
    intro a ha
    rcases List.mem_append.1 ha with ha | ha
    · exact h'.subset (h.mem a ha)
    · exact h'.mem a ha
  reached := by
    intro b hb
    rcases h'.reached b hb with hb | ⟨a, ha, hab⟩
    · rcases h.reached b hb with hb | ⟨a, ha, hab⟩
      · exact .inl hb
      · exact .inr ⟨a, List.mem_append_left _ ha, hab⟩
    · exact .inr ⟨a, List.mem_append_right _ ha, hab⟩
  closed := by
    intro b hb
    rcases h'.closed b hb with hb | hb
    · exact (h.closed b hb).imp id fun hc c hbc => h'.subset (hc c hbc)
    · exact .inr hb

/-- A node is visited when it has been seen and its successors are visited. -/
theorem Visited.of_succ (h : Visited succ (succ a) (a :: seen) seen') :
    Visited succ [a] seen seen' where
  subset := fun _ hb => h.subset (List.mem_cons_of_mem _ hb)
  mem := fun _ hb => List.mem_singleton.1 hb ▸ h.subset List.mem_cons_self
  reached := by
    intro b hb
    rcases h.reached b hb with hb | ⟨c, hc, hcb⟩
    · rcases List.mem_cons.1 hb with rfl | hb
      · exact .inr ⟨b, List.mem_singleton_self b, .refl⟩
      · exact .inl hb
    · exact .inr ⟨a, List.mem_singleton_self a, .head hc hcb⟩
  closed := by
    intro b hb
    rcases h.closed b hb with hb | hb
    · rcases List.mem_cons.1 hb with rfl | hb
      · exact .inr h.mem
      · exact .inl hb
    · exact .inr hb

variable [DecidableEq α]

variable (succ) in
/-- The nodes seen when the traversal from a node is over, the last one first. The traversal goes
no deeper than a bound. -/
def visit : ℕ → α → List α → Option (List α)
  | 0, _, _ => none
  | n + 1, a, seen =>
    if a ∈ seen then some seen
    else (succ a).foldlM (fun seen b => visit n b seen) (a :: seen)

theorem visited_foldlM (hn : ∀ {b seen seen'}, visit succ n b seen = some seen' →
    Visited succ [b] seen seen') : ∀ {bs seen seen' : List α},
    bs.foldlM (fun seen b => visit succ n b seen) seen = some seen' → Visited succ bs seen seen'
  | [], _, _, h => by
    cases h
    exact .nil
  | b :: bs, seen, seen', h => by
    obtain ⟨seen₁, h₁, h₂⟩ := Option.bind_eq_some_iff.1 h
    exact (hn h₁).append (visited_foldlM hn h₂)

theorem visited_visit : ∀ {n : ℕ} {a : α} {seen seen' : List α},
    visit succ n a seen = some seen' → Visited succ [a] seen seen'
  | 0, _, _, _, h => by cases h
  | n + 1, a, seen, seen', h => by
    rw [visit] at h
    split_ifs at h with ha
    · cases h
      exact .of_mem ha
    · exact (visited_foldlM visited_visit h).of_succ

/-- What is seen in the end is what can be reached. -/
theorem mem_visit_iff (h : visit succ n a [] = some seen) : b ∈ seen ↔ Reaches succ a b := by
  have hv := visited_visit h
  constructor
  · intro hb
    rcases hv.reached b hb with hb | ⟨c, hc, hcb⟩
    · cases hb
    · rwa [List.mem_singleton.1 hc] at hcb
  · intro hab
    induction hab with
    | refl => exact hv.mem a (List.mem_singleton_self a)
    | tail _ hbc ih =>
      rcases hv.closed _ ih with hb | hb
      · cases hb
      · exact hb _ hbc

theorem foldlM_visit_succ (hn : ∀ {b seen seen'}, visit succ n b seen = some seen' →
    visit succ (n + 1) b seen = some seen') : ∀ {bs seen seen' : List α},
    bs.foldlM (fun seen b => visit succ n b seen) seen = some seen' →
    bs.foldlM (fun seen b => visit succ (n + 1) b seen) seen = some seen'
  | [], _, _, h => h
  | b :: bs, seen, seen', h => by
    obtain ⟨seen₁, h₁, h₂⟩ := Option.bind_eq_some_iff.1 h
    exact Option.bind_eq_some_iff.2 ⟨seen₁, hn h₁, foldlM_visit_succ hn h₂⟩

theorem visit_succ : ∀ {n : ℕ} {a : α} {seen seen' : List α},
    visit succ n a seen = some seen' → visit succ (n + 1) a seen = some seen'
  | 0, _, _, _, h => by cases h
  | n + 1, a, seen, seen', h => by
    rw [visit] at h ⊢
    split_ifs at h ⊢ with ha
    · exact h
    · exact foldlM_visit_succ visit_succ h

/-- A greater bound makes no difference to a traversal that is over. -/
theorem visit_of_le {m : ℕ} (hnm : n ≤ m) (h : visit succ n a seen = some seen') :
    visit succ m a seen = some seen' := by
  induction hnm with
  | refl => exact h
  | step _ ih => exact visit_succ ih

/-! ## Termination -/

section Finite

variable {nodes : List α}

/-- The nodes that have not been seen. -/
def unseen (nodes seen : List α) : ℕ := (nodes.filter (· ∉ seen)).length

theorem unseen_le (h : seen ⊆ seen') : unseen nodes seen' ≤ unseen nodes seen := by
  refine (List.monotone_filter_right nodes fun b hb => ?_).length_le
  simp only [decide_eq_true_eq] at hb ⊢
  exact fun hmem => hb (h hmem)

theorem unseen_cons_lt (ha : a ∈ nodes) (hseen : a ∉ seen) :
    unseen nodes (a :: seen) < unseen nodes seen := by
  have hfilter : nodes.filter (· ∉ a :: seen) = (nodes.filter (· ∉ seen)).filter (· ≠ a) := by
    rw [List.filter_filter]
    refine List.filter_congr fun b _ => ?_
    simp [List.mem_cons, not_or]
  rw [unseen, hfilter]
  refine List.length_filter_lt_length_iff_exists.2 ⟨a, ?_, by simp⟩
  simp [ha, hseen]

theorem exists_foldlM (hn : ∀ {b seen}, unseen nodes seen < n →
    ∃ seen', visit succ n b seen = some seen') :
    ∀ (bs : List α) {seen : List α}, unseen nodes seen < n →
    ∃ seen', bs.foldlM (fun seen b => visit succ n b seen) seen = some seen'
  | [], seen, _ => ⟨seen, rfl⟩
  | b :: bs, seen, h => by
    obtain ⟨seen₁, h₁⟩ := hn (b := b) h
    obtain ⟨seen₂, h₂⟩ := exists_foldlM hn bs
      (Nat.lt_of_le_of_lt (unseen_le (visited_visit h₁).subset) h)
    exact ⟨seen₂, Option.bind_eq_some_iff.2 ⟨seen₁, h₁, h₂⟩⟩

/-- A traversal of finitely many nodes goes no deeper than there are nodes left. -/
theorem exists_visit (hnodes : ∀ a, a ∈ nodes) : ∀ {n : ℕ} {a : α} {seen : List α},
    unseen nodes seen < n → ∃ seen', visit succ n a seen = some seen'
  | 0, _, _, h => by omega
  | n + 1, a, seen, h => by
    rw [visit]
    split_ifs with ha
    · exact ⟨seen, rfl⟩
    · have := unseen_cons_lt (hnodes a) ha
      exact exists_foldlM (exists_visit hnodes) _ (by omega)

end Finite

/-- A fold over states is the fold over what they stand for. -/
theorem foldlM_map {σ τ ι : Type*} {f : σ → ι → Option σ} {f' : τ → ι → Option τ} (g : τ → σ)
    (h : ∀ t x, f (g t) x = (f' t x).map g) :
    ∀ (l : List ι) (t : τ), l.foldlM f (g t) = (l.foldlM f' t).map g
  | [], _ => rfl
  | x :: l, t => by
    rw [List.foldlM_cons, List.foldlM_cons, h]
    cases f' t x with
    | none => rfl
    | some t' => exact foldlM_map g h l t'

end Traverse
