import Mathlib.Data.List.Find
import Mathlib.Data.List.Forall2
import Mathlib.Data.Option.Basic

/-!
# Hash maps with first-wins insertion

`UnorderedMap` is the part of an unordered map that does not depend on its hash function: the
entries in the order they were inserted, and keys compared with `==`. `emplace` keeps the entry
an equal key already has. Nothing asks `==` to be reflexive: a key that does not equal itself is
never found, and is inserted every time. Of an ordered map it shows what look-ups do. Two maps with
related entries stay related when related entries are inserted (`Related.emplace`).
-/

structure UnorderedMap (κ β : Type*) where
  entries : List (κ × β)

namespace UnorderedMap

variable {κ β : Type*} [BEq κ]

def empty : UnorderedMap κ β := ⟨[]⟩

/-- The position of the entry with key `k`, the map's iterator. -/
def find (m : UnorderedMap κ β) (k : κ) : Option ℕ := m.entries.findIdx? (·.1 == k)

/-- The value an iterator points to. -/
def get? (m : UnorderedMap κ β) (i : ℕ) : Option β := m.entries[i]?.map (·.2)

/-- The value stored for `k`. -/
def lookup (m : UnorderedMap κ β) (k : κ) : Option β := (m.entries.find? (·.1 == k)).map (·.2)

/-- The entry's position, and whether it is new. -/
def emplace (m : UnorderedMap κ β) (k : κ) (v : β) : UnorderedMap κ β × ℕ × Bool :=
  match m.find k with
  | some i => (m, i, false)
  | none => (⟨m.entries ++ [(k, v)]⟩, m.entries.length, true)

/-- Assignment through an iterator. -/
def assign (m : UnorderedMap κ β) (i : ℕ) (v : β) : UnorderedMap κ β :=
  ⟨m.entries.modify i fun e => (e.1, v)⟩

/-- `m[k] = v`, where a new entry has a default value first. -/
def set (m : UnorderedMap κ β) (k : κ) (default v : β) : UnorderedMap κ β :=
  let e := m.emplace k default
  e.1.assign e.2.1 v

/-- `m[k]`, which makes a new entry, with a default value, when there is none. -/
def subscript (m : UnorderedMap κ β) (k : κ) (default : β) : UnorderedMap κ β × β :=
  let e := m.emplace k default
  (e.1, (e.1.get? e.2.1).getD default)

variable {m : UnorderedMap κ β} {k k' : κ} {v w : β} {i : ℕ}

theorem find_eq_none : m.find k = none ↔ ∀ e ∈ m.entries, (e.1 == k) = false := by
  simp [find, List.findIdx?_eq_none_iff]

theorem lookup_eq_none : m.lookup k = none ↔ m.find k = none := by
  simp [lookup, find_eq_none, List.find?_eq_none]

/-- Entries that do not have the key can be left out of the search for it. -/
theorem lookup_filter {p : κ × β → Bool} (h : ∀ e ∈ m.entries, (e.1 == k) = true → p e = true) :
    lookup ⟨m.entries.filter p⟩ k = m.lookup k := by
  unfold lookup
  rw [List.find?_filter]
  congr 1
  refine List.find?_congr fun e he => ?_
  cases hk : e.1 == k with
  | false => simp
  | true => simp [h e he hk]

theorem get?_of_find (h : m.find k = some i) : m.get? i = m.lookup k := by
  unfold find at h
  unfold get? lookup
  rw [List.findIdx?_eq_some_iff_getElem] at h
  obtain ⟨hi, hk, hlt⟩ := h
  have hf : m.entries.find? (·.1 == k) = some m.entries[i] := by
    rw [List.find?_eq_some_iff_getElem]
    exact ⟨hk, i, hi, rfl, fun j hj => by simpa using hlt j hj⟩
  rw [hf, List.getElem?_eq_getElem hi]

theorem lookup_isSome (h : m.find k = some i) : ∃ w, m.lookup k = some w := by
  rcases hl : m.lookup k with _ | w
  · rw [lookup_eq_none, h] at hl
    cases hl
  · exact ⟨w, rfl⟩

theorem emplace_of_find (h : m.find k = some i) (v : β) : m.emplace k v = (m, i, false) := by
  simp [emplace, h]

theorem emplace_of_none (h : m.find k = none) (v : β) :
    m.emplace k v = (⟨m.entries ++ [(k, v)]⟩, m.entries.length, true) := by
  simp [emplace, h]

omit [BEq κ] in
theorem assign_last (v w : β) :
    (⟨m.entries ++ [(k, v)]⟩ : UnorderedMap κ β).assign m.entries.length w
      = ⟨m.entries ++ [(k, w)]⟩ := by
  have h : (m.entries ++ [(k, v)]).modify m.entries.length (fun e => (e.1, w))
      = m.entries ++ [(k, w)] := by
    induction m.entries with
    | nil => rfl
    | cons e es ih => simpa using ih
  simp only [assign, h]

theorem lookup_snoc :
    (⟨m.entries ++ [(k', v)]⟩ : UnorderedMap κ β).lookup k
      = (m.lookup k).or (if k' == k then some v else none) := by
  simp only [lookup, List.find?_append]
  cases h : m.entries.find? (fun e => e.1 == k) with
  | none => cases hk : k' == k <;> simp [hk]
  | some e => simp

/-- Insertion is first-wins: what a map stores for a key is what it was first given for it. -/
theorem lookup_emplace :
    (m.emplace k' v).1.lookup k = (m.lookup k).or (if k' == k ∧ m.find k' = none
      then some v else none) := by
  rcases h : m.find k' with _ | i
  · rw [emplace_of_none h, lookup_snoc]
    simp
  · rw [emplace_of_find h]
    simp

theorem set_of_none (h : m.find k = none) : m.set k v w = ⟨m.entries ++ [(k, w)]⟩ := by
  rw [set, emplace_of_none h, assign_last]

theorem subscript_of_lookup (h : m.lookup k = some w) : m.subscript k v = (m, w) := by
  obtain ⟨i, hi⟩ : ∃ i, m.find k = some i := by
    rw [← Option.ne_none_iff_exists', ne_eq, ← lookup_eq_none, h]
    exact Option.some_ne_none w
  rw [subscript, emplace_of_find hi]
  simp only [get?_of_find hi, h, Option.getD_some]

/-- A key that was looked up has an entry then. -/
theorem lookup_subscript [ReflBEq κ] (h : (m.lookup k').isSome ∨ k = k') :
    ((m.subscript k v).1.lookup k').isSome := by
  show ((m.emplace k v).1.lookup k').isSome
  rw [lookup_emplace]
  rcases h with h | rfl
  · obtain ⟨w, hw⟩ := Option.isSome_iff_exists.1 h
    rw [hw]
    rfl
  · cases hk : m.lookup k with
    | some w => rfl
    | none => simp [lookup_eq_none.1 hk]

theorem mem_entries_of_lookup (h : m.lookup k = some v) :
    ∃ e ∈ m.entries, (e.1 == k) = true ∧ e.2 = v := by
  unfold lookup at h
  obtain ⟨e, he, rfl⟩ := Option.map_eq_some_iff.1 h
  have hk := List.find?_some he
  exact ⟨e, List.mem_of_find?_eq_some he, hk, rfl⟩

/-- After insertions one by one, a map stores for a key what it was first given for it. -/
theorem lookup_foldl_emplace [LawfulBEq κ] (es : List (κ × β)) (m : UnorderedMap κ β) :
    (es.foldl (fun m e => (m.emplace e.1 e.2).1) m).lookup k
      = (m.lookup k).or ((es.find? (·.1 == k)).map (·.2)) := by
  induction es generalizing m with
  | nil => simp
  | cons e es ih =>
    rw [List.foldl_cons, ih, lookup_emplace, List.find?_cons]
    cases hk : e.1 == k with
    | false => simp
    | true =>
      have heq := eq_of_beq hk
      subst heq
      cases hm : m.lookup e.1 with
      | some w => simp
      | none => simp [lookup_eq_none.1 hm]

section Related

variable {κ κ' β β' : Type*} [BEq κ] [BEq κ'] {R : κ → κ' → Prop} {S : β → β' → Prop}
  {m : UnorderedMap κ β} {m' : UnorderedMap κ' β'} {k : κ} {k' : κ'}

/-- The entries of the maps are related, one by one. -/
def Related (R : κ → κ' → Prop) (S : β → β' → Prop) (m : UnorderedMap κ β)
    (m' : UnorderedMap κ' β') : Prop :=
  List.Forall₂ (fun e e' => R e.1 e'.1 ∧ S e.2 e'.2) m.entries m'.entries

/-- Keys that are compared alike are found in the same entry. -/
theorem Related.entries_find (h : m.Related R S m')
    (hk : ∀ j j', R j j' → (j == k) = (j' == k')) :
    Option.Rel (fun e e' => R e.1 e'.1 ∧ S e.2 e'.2) (m.entries.find? (·.1 == k))
      (m'.entries.find? (·.1 == k')) := by
  obtain ⟨es⟩ := m
  obtain ⟨es'⟩ := m'
  change List.Forall₂ _ es es' at h
  show Option.Rel _ (es.find? (·.1 == k)) (es'.find? (·.1 == k'))
  induction h with
  | nil => exact .none
  | @cons e e' es es' he _ ih =>
    rw [List.find?_cons, List.find?_cons, hk _ _ he.1]
    cases e'.1 == k' with
    | true => exact .some he
    | false => exact ih

theorem Related.lookup (h : m.Related R S m') (hk : ∀ j j', R j j' → (j == k) = (j' == k')) :
    Option.Rel S (m.lookup k) (m'.lookup k') := by
  have he := h.entries_find hk
  unfold UnorderedMap.lookup
  generalize m.entries.find? (·.1 == k) = e at he
  generalize m'.entries.find? (·.1 == k') = e' at he
  cases he with
  | none => exact .none
  | some he => exact .some he.2

theorem Related.emplace {v : β} {v' : β'} (h : m.Related R S m')
    (hk : ∀ j j', R j j' → (j == k) = (j' == k')) (hkk : R k k') (hv : S v v') :
    (m.emplace k v).1.Related R S (m'.emplace k' v').1 := by
  have hlookup := h.lookup hk
  rcases hm : m.find k with _ | i <;> rcases hm' : m'.find k' with _ | i'
  · rw [emplace_of_none hm, emplace_of_none hm']
    exact List.rel_append h (.cons ⟨hkk, hv⟩ .nil)
  · obtain ⟨w', hw'⟩ := lookup_isSome hm'
    rw [lookup_eq_none.2 hm, hw'] at hlookup
    cases hlookup
  · obtain ⟨w, hw⟩ := lookup_isSome hm
    rw [hw, lookup_eq_none.2 hm'] at hlookup
    cases hlookup
  · rwa [emplace_of_find hm, emplace_of_find hm']

end Related

end UnorderedMap
