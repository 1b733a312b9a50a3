import Mathlib.Data.List.Basic

/-!
# Stores to a block of memory

A block of memory is a list of cells. A store replaces the cells from an offset on, and stores
that are apart leave each other's cells alone (`storeAll_getElem?`). Stores that are not behind
their places, and reach the last cells of them all, are at their places (`inPlace_of_changed`).
-/

namespace Memory

variable {α : Type*} {mem bs : List α} {o i : ℕ}

/-- `bs` stored at offset `o`. -/
def store (mem : List α) (o : ℕ) (bs : List α) : List α :=
  mem.take o ++ bs ++ mem.drop (o + bs.length)

/-- The stores done one after the other, each at its offset. -/
def storeAll (mem : List α) (stores : List (ℕ × List α)) : List α :=
  stores.foldl (fun mem s => store mem s.1 s.2) mem

/-- Each store ends where the ones after it start, or before. -/
def Apart (stores : List (ℕ × List α)) : Prop :=
  stores.Pairwise fun s s' => s.1 + s.2.length ≤ s'.1

/-- Stores do not look at what the cells hold. -/
theorem storeAll_map {β : Type*} (f : α → β) : ∀ (stores : List (ℕ × List α)) (mem : List α),
    storeAll (mem.map f) (stores.map fun s => (s.1, s.2.map f)) = (storeAll mem stores).map f
  | [], _ => rfl
  | s :: stores, mem => by
    have hstore : store (mem.map f) s.1 (s.2.map f) = (store mem s.1 s.2).map f := by
      simp [store]
    show storeAll (store (mem.map f) s.1 (s.2.map f)) (stores.map fun s => (s.1, s.2.map f)) = _
    rw [hstore, storeAll_map f stores]
    rfl

theorem length_store (h : o + bs.length ≤ mem.length) : (store mem o bs).length = mem.length := by
  unfold store
  simp only [List.length_append, List.length_take, List.length_drop]
  omega

theorem store_getElem?_inside (h : o + bs.length ≤ mem.length) (hi : i < bs.length) :
    (store mem o bs)[o + i]? = bs[i]? := by
  unfold store
  have ho : (mem.take o).length = o := List.length_take_of_le (by omega)
  rw [List.append_assoc, List.getElem?_append_right (by omega), ho, Nat.add_sub_cancel_left,
    List.getElem?_append_left hi]

theorem store_getElem?_before (h : o + bs.length ≤ mem.length) (hi : i < o) :
    (store mem o bs)[i]? = mem[i]? := by
  unfold store
  have ho : (mem.take o).length = o := List.length_take_of_le (by omega)
  rw [List.append_assoc, List.getElem?_append_left (by omega), List.getElem?_take_of_lt hi]

theorem store_getElem?_after (h : o + bs.length ≤ mem.length) (hi : o + bs.length ≤ i) :
    (store mem o bs)[i]? = mem[i]? := by
  unfold store
  have ho : (mem.take o).length = o := List.length_take_of_le (by omega)
  rw [List.append_assoc, List.getElem?_append_right (by omega), ho,
    List.getElem?_append_right (by omega), List.getElem?_drop]
  congr 1
  omega

theorem length_storeAll : ∀ {stores : List (ℕ × List α)} {mem : List α},
    (∀ s ∈ stores, s.1 + s.2.length ≤ mem.length) → (storeAll mem stores).length = mem.length
  | [], _, _ => rfl
  | s :: stores, mem, h => by
    have hs := length_store (h s List.mem_cons_self)
    show (storeAll (store mem s.1 s.2) stores).length = _
    rw [length_storeAll fun s' hs' => by rw [hs]; exact h s' (List.mem_cons_of_mem _ hs'), hs]

/-- Stores from an offset on leave the cells before it alone. -/
theorem storeAll_getElem?_before : ∀ {stores : List (ℕ × List α)} {mem : List α},
    (∀ s ∈ stores, s.1 + s.2.length ≤ mem.length) → (∀ s ∈ stores, i < s.1) →
    (storeAll mem stores)[i]? = mem[i]?
  | [], _, _, _ => rfl
  | s :: stores, mem, h, hi => by
    have hs := h s List.mem_cons_self
    show (storeAll (store mem s.1 s.2) stores)[i]? = _
    rw [storeAll_getElem?_before
      (fun s' hs' => by rw [length_store hs]; exact h s' (List.mem_cons_of_mem _ hs'))
      fun s' hs' => hi s' (List.mem_cons_of_mem _ hs'),
      store_getElem?_before hs (hi s List.mem_cons_self)]

/-- After stores that are apart, each one's cells hold what it stored. -/
theorem storeAll_getElem? : ∀ {stores : List (ℕ × List α)} {mem : List α},
    (∀ s ∈ stores, s.1 + s.2.length ≤ mem.length) → Apart stores →
    ∀ s ∈ stores, ∀ i < s.2.length, (storeAll mem stores)[s.1 + i]? = s.2[i]?
  | s₀ :: stores, mem, h, hapart, s, hs, i, hi => by
    have hs₀ := h s₀ List.mem_cons_self
    obtain ⟨hfirst, hrest⟩ := List.pairwise_cons.1 hapart
    have h' : ∀ s' ∈ stores, s'.1 + s'.2.length ≤ (store mem s₀.1 s₀.2).length := by
      intro s' hs'
      rw [length_store hs₀]
      exact h s' (List.mem_cons_of_mem _ hs')
    show (storeAll (store mem s₀.1 s₀.2) stores)[s.1 + i]? = _
    rcases List.mem_cons.1 hs with rfl | hs
    · rw [storeAll_getElem?_before h' fun s' hs' => by have := hfirst s' hs'; omega,
        store_getElem?_inside hs₀ hi]
    · exact storeAll_getElem? h' hrest s hs i hi

/-- The same of the stores that are made of some things. -/
theorem storeAll_map_getElem? {β : Type*} {f : β → ℕ × List α} {xs : List β}
    (h : ∀ x ∈ xs, (f x).1 + (f x).2.length ≤ mem.length)
    (hapart : xs.Pairwise fun x y => (f x).1 + (f x).2.length ≤ (f y).1) {x : β} (hx : x ∈ xs)
    (hi : i < (f x).2.length) : (storeAll mem (xs.map f))[(f x).1 + i]? = (f x).2[i]? :=
  storeAll_getElem? (List.forall_mem_map.2 h) (List.pairwise_map.2 hapart) _
    (List.mem_map_of_mem hx) i hi

/-- Stores of cells at an address, each with a place that it is not behind: when the last cell of
every place has changed, each store was to its place. -/
theorem inPlace_of_changed : ∀ {xs : List (ℕ × ℕ × List α)} {m : List α},
    (∀ x ∈ xs, x.1 + x.2.2.length ≤ m.length) → (∀ x ∈ xs, x.1 ≤ x.2.1) →
    (∀ x ∈ xs, x.2.2 ≠ []) →
    (xs.Pairwise fun x x' => x.2.1 + x.2.2.length ≤ x'.2.1) →
    (∀ x ∈ xs, (storeAll m (xs.map fun x => (x.1, x.2.2)))[x.2.1 + (x.2.2.length - 1)]?
      ≠ m[x.2.1 + (x.2.2.length - 1)]?) →
    ∀ x ∈ xs, x.1 = x.2.1
  | x₀ :: xs, m, h, hle, hne, hapart, hchanged, x, hx => by
    have h₀ := h x₀ List.mem_cons_self
    have hle₀ := hle x₀ List.mem_cons_self
    have hlen {y : ℕ × ℕ × List α} (hy : y ∈ x₀ :: xs) : 0 < y.2.2.length :=
      List.length_pos_of_ne_nil (hne y hy)
    obtain ⟨hfirst, hrest⟩ := List.pairwise_cons.1 hapart
    have h' : ∀ y ∈ xs, y.1 + y.2.2.length ≤ (store m x₀.1 x₀.2.2).length := by
      intro y hy
      rw [length_store h₀]
      exact h y (List.mem_cons_of_mem _ hy)
    have hxs : ∀ y ∈ xs, y.1 = y.2.1 := by
      refine inPlace_of_changed h' (fun y hy => hle y (List.mem_cons_of_mem _ hy))
        (fun y hy => hne y (List.mem_cons_of_mem _ hy)) hrest fun y hy => ?_
      -- the first store ends before the place of `y`
      have := hfirst y hy
      have := hlen (List.mem_cons_of_mem _ hy)
      rw [store_getElem?_after h₀ (by omega)]
      exact hchanged y (List.mem_cons_of_mem _ hy)
    rcases List.mem_cons.1 hx with rfl | hx
    · by_contra hother
      -- the later stores are behind its place, and it ends before the last cell of that
      refine hchanged x List.mem_cons_self ?_
      have := hlen List.mem_cons_self
      show (storeAll (store m x.1 x.2.2) _)[x.2.1 + (x.2.2.length - 1)]? = _
      rw [storeAll_getElem?_before, store_getElem?_after h₀ (by omega)]
      · intro s hs
        obtain ⟨y, hy, rfl⟩ := List.mem_map.1 hs
        exact h' y hy
      · intro s hs
        obtain ⟨y, hy, rfl⟩ := List.mem_map.1 hs
        have := hfirst y hy
        have := hxs y hy
        omega
    · exact hxs x hx

end Memory
