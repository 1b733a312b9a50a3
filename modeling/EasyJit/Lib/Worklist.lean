import EasyJit.Lib.Traverse
import Mathlib.Algebra.Order.BigOperators.Group.List
import Mathlib.Algebra.Order.Ring.Nat

/-!
# Traversal with a work list

A loop takes a node from a list of work, and puts the successors of the node on the list when it
sees it for the first time. The list may hold a node several times. The loop ends (`exists_run`),
and has visited what can be reached (`mem_run_iff`), each node once (`nodup_run`).
-/

namespace Worklist

open Traverse

variable {α : Type*} (succ : α → List α)

/-- The nodes visited when the list is empty, the last one first, after no more than a number of
turns. -/
def run [DecidableEq α] : ℕ → List α → List α → Option (List α)
  | _, [], visited => some visited
  | 0, _ :: _, _ => none
  | n + 1, a :: todo, visited =>
    if a ∈ visited then run n todo visited else run n (succ a ++ todo) (a :: visited)

/-- What holds between two turns of a traversal from `start`. -/
structure Inv (start : α) (todo visited : List α) : Prop where
  reached : ∀ b ∈ visited ++ todo, Reaches succ start b
  closed : ∀ b ∈ visited, ∀ c ∈ succ b, c ∈ visited ∨ c ∈ todo
  start : start ∈ visited ∨ start ∈ todo
  nodup : visited.Nodup

variable {succ} {start a b : α} {todo visited seen : List α} {n : ℕ}

theorem inv_start : Inv succ start [start] [] where
  reached := fun _ hb => List.mem_singleton.1 hb ▸ .refl
  closed := fun _ hb => absurd hb List.not_mem_nil
  start := .inr (List.mem_singleton_self start)
  nodup := List.nodup_nil

theorem Inv.skip (h : Inv succ start (a :: todo) visited) (ha : a ∈ visited) :
    Inv succ start todo visited where
  reached := by
    intro b hb
    refine h.reached b ?_
    rcases List.mem_append.1 hb with hb | hb
    · exact List.mem_append_left _ hb
    · exact List.mem_append_right _ (List.mem_cons_of_mem _ hb)
  closed := by
    intro b hb c hc
    rcases h.closed b hb c hc with hc | hc
    · exact .inl hc
    · rcases List.mem_cons.1 hc with rfl | hc
      · exact .inl ha
      · exact .inr hc
  start := by
    rcases h.start with hs | hs
    · exact .inl hs
    · rcases List.mem_cons.1 hs with rfl | hs
      · exact .inl ha
      · exact .inr hs
  nodup := h.nodup

theorem Inv.visit (h : Inv succ start (a :: todo) visited) (ha : a ∉ visited) :
    Inv succ start (succ a ++ todo) (a :: visited) where
  reached := by
    have hstart : Reaches succ start a :=
      h.reached a (List.mem_append_right _ List.mem_cons_self)
    intro b hb
    rcases List.mem_append.1 hb with hb | hb
    · rcases List.mem_cons.1 hb with rfl | hb
      · exact hstart
      · exact h.reached b (List.mem_append_left _ hb)
    · rcases List.mem_append.1 hb with hb | hb
      · exact hstart.tail hb
      · exact h.reached b (List.mem_append_right _ (List.mem_cons_of_mem _ hb))
  closed := by
    intro b hb c hc
    rcases List.mem_cons.1 hb with rfl | hb
    · exact .inr (List.mem_append_left _ hc)
    · rcases h.closed b hb c hc with hc | hc
      · exact .inl (List.mem_cons_of_mem _ hc)
      · rcases List.mem_cons.1 hc with rfl | hc
        · exact .inl List.mem_cons_self
        · exact .inr (List.mem_append_right _ hc)
  start := by
    rcases h.start with hs | hs
    · exact .inl (List.mem_cons_of_mem _ hs)
    · rcases List.mem_cons.1 hs with rfl | hs
      · exact .inl List.mem_cons_self
      · exact .inr (List.mem_append_right _ hs)
  nodup := List.nodup_cons.2 ⟨ha, h.nodup⟩

variable [DecidableEq α]

/-- When the list is empty, the invariant holds with nothing left to do. -/
theorem Inv.of_run : ∀ {n : ℕ} {todo visited : List α}, Inv succ start todo visited →
    run succ n todo visited = some seen → Inv succ start [] seen
  | 0, [], _, h, hrun | _ + 1, [], _, h, hrun => by
    cases hrun
    exact h
  | 0, _ :: _, _, _, hrun => by cases hrun
  | n + 1, a :: todo, visited, h, hrun => by
    rw [run] at hrun
    split_ifs at hrun with ha
    · exact of_run (h.skip ha) hrun
    · exact of_run (h.visit ha) hrun

theorem mem_run_iff (h : run succ n [start] [] = some seen) :
    b ∈ seen ↔ Reaches succ start b := by
  have hinv := inv_start.of_run h
  constructor
  · intro hb
    exact hinv.reached b (List.mem_append_left _ hb)
  · intro hb
    induction hb with
    | refl => exact hinv.start.resolve_right List.not_mem_nil
    | tail _ hbc ih => exact (hinv.closed _ ih _ hbc).resolve_right List.not_mem_nil

theorem nodup_run (h : run succ n [start] [] = some seen) : seen.Nodup := (inv_start.of_run h).nodup

/-! ## Termination -/

variable (succ) in
/-- The nodes on the list, and those that may still be put there. -/
def work (nodes todo visited : List α) : ℕ :=
  todo.length + ((nodes.filter (· ∉ visited)).map fun a => (succ a).length).sum

theorem sum_filter_cons {nodes : List α} (f : α → ℕ) (hnodes : a ∈ nodes) (ha : a ∉ visited) :
    f a + ((nodes.filter (· ∉ a :: visited)).map f).sum
      ≤ ((nodes.filter (· ∉ visited)).map f).sum := by
  induction nodes with
  | nil => cases hnodes
  | cons b nodes ih =>
    by_cases hb : b = a
    · subst hb
      have hsub : (nodes.filter (· ∉ b :: visited)).Sublist (nodes.filter (· ∉ visited)) := by
        refine List.monotone_filter_right nodes fun c hc => ?_
        simp only [List.mem_cons, not_or, decide_eq_true_eq] at hc ⊢
        exact hc.2
      have hle := (hsub.map f).sum_le_sum fun _ _ => Nat.zero_le _
      rw [List.filter_cons_of_neg (by simp), List.filter_cons_of_pos (by simpa using ha),
        List.map_cons, List.sum_cons]
      exact Nat.add_le_add_left hle _
    · have ih := ih ((List.mem_cons.1 hnodes).resolve_left (Ne.symm hb))
      by_cases hmem : b ∈ visited
      · rw [List.filter_cons_of_neg (by simp [hmem]), List.filter_cons_of_neg (by simp [hmem])]
        exact ih
      · rw [List.filter_cons_of_pos (by simp [hmem, hb]), List.filter_cons_of_pos (by simp [hmem]),
          List.map_cons, List.map_cons, List.sum_cons, List.sum_cons]
        omega

/-- The loop takes no more turns than there is work. -/
theorem exists_run {nodes : List α} (hnodes : ∀ a, a ∈ nodes) : ∀ {n : ℕ} {todo visited : List α},
    work succ nodes todo visited ≤ n → ∃ seen, run succ n todo visited = some seen
  | 0, [], visited, _ | _ + 1, [], visited, _ => ⟨visited, rfl⟩
  | 0, _ :: _, _, h => by simp [work] at h
  | n + 1, a :: todo, visited, h => by
    rw [run]
    split_ifs with ha
    · refine exists_run hnodes ?_
      rw [work, List.length_cons] at h
      rw [work]
      omega
    · refine exists_run hnodes ?_
      have := sum_filter_cons (fun a => (succ a).length) (hnodes a) ha
      rw [work, List.length_cons] at h
      rw [work, List.length_append]
      omega

/-- More turns make no difference to a traversal that is over. -/
theorem run_of_le : ∀ {n m : ℕ} {todo visited : List α}, n ≤ m →
    run succ n todo visited = some seen → run succ m todo visited = some seen
  | 0, 0, [], _, _, h | 0, _ + 1, [], _, _, h | _ + 1, 0, [], _, _, h
  | _ + 1, _ + 1, [], _, _, h => h
  | 0, _, _ :: _, _, _, h => by cases h
  | n + 1, m + 1, a :: todo, visited, hnm, h => by
    rw [run] at h ⊢
    split_ifs at h ⊢ with ha
    · exact run_of_le (Nat.le_of_succ_le_succ hnm) h
    · exact run_of_le (Nat.le_of_succ_le_succ hnm) h

end Worklist
