import EasyJit.Proofs.Param
import EasyJit.Proofs.Wrapper
import Mathlib.Data.List.ReduceOption
import Mathlib.Data.Fintype.Card

/-!
# The two signatures of a wrapper

The type computation stops once it has seen as many placeholder types as there are placeholders.
If it succeeds then, each placeholder has one type, and its element of the result is the parameter
at its first occurrence (`mapPlaceholderToType_firstOf`). It does so when every number occurs, but
not where a placeholder comes in a second form before they all have
(`mapPlaceholderToType_exact_iff`). The layout of the wrapper, computed at run time from the
context, keeps first occurrences as well, so the two signatures are one (`wrapper_signature_eq`).
-/

namespace EasyJit

namespace Meta

open ArgTraits

variable {τ : Type} [ArgTraits τ] {PL AL pre seen : List τ} {result : List (Option τ)} {N : ℕ}

theorem discardOptions_eq (args : List τ) :
    discardOptions args = args.filter fun a => !isOption a := by
  induction args with
  | nil => rfl
  | cons a args ih =>
    rw [discardOptions, ih]
    by_cases h : isOption a = true <;> simp [h]

/-! ## First occurrences -/

/-- The argument at position `i` is placeholder `k`, and none before it is. -/
def FirstOf (AL : List τ) (i k : ℕ) : Prop :=
  (AL.map isPlaceholder)[i]? = some k ∧ ∀ j < i, (AL.map isPlaceholder)[j]? ≠ some k

/-- The greatest placeholder of a list, and 0 where there is none. -/
def largestPlaceholder (AL : List τ) : ℕ := (AL.map isPlaceholder).foldr max 0

/-- Every number up to the greatest placeholder occurs. -/
def AllOccur (AL : List τ) : Prop :=
  ∀ k < largestPlaceholder AL, k + 1 ∈ AL.map isPlaceholder

/-- Where a placeholder occurs in a form other than before, every number has occurred before. -/
def SecondFormsLate (AL : List τ) : Prop :=
  ∀ i j a b, i < j → AL[i]? = some a → AL[j]? = some b → isPlaceholder b ≠ 0 →
    isPlaceholder a = isPlaceholder b → a ≠ b →
    ∀ k < largestPlaceholder AL, k + 1 ∈ (AL.take j).map isPlaceholder

/-- The computation type-checks for the lists in which every number occurs, and the result has the
parameter at the first position of each placeholder. -/
structure MapsPlaceholders [DecidableEq τ] (PL AL : List τ) : Prop where
  accepts : (∃ L, mapPlaceholderToType PL AL = .ok L) ↔ AllOccur AL
  length : ∀ L, mapPlaceholderToType PL AL = .ok L → L.length = largestPlaceholder AL
  types : ∀ L, mapPlaceholderToType PL AL = .ok L → ∀ i k, FirstOf AL i (k + 1) →
    L[k]? = PL[i]?

theorem maxPlaceholder_eq : ∀ (AL : List τ) (m : ℕ),
    maxPlaceholder AL m = max m (largestPlaceholder AL)
  | [], m => (Nat.max_zero m).symm
  | a :: AL, m => by
    have hcons : largestPlaceholder (a :: AL) = max (isPlaceholder a) (largestPlaceholder AL) := rfl
    rw [maxPlaceholder, maxPlaceholder_eq AL, hcons]
    split_ifs <;> omega

theorem le_largestPlaceholder {a : τ} (ha : a ∈ AL) : isPlaceholder a ≤ largestPlaceholder AL := by
  induction AL with
  | nil => cases ha
  | cons b AL ih =>
    rw [largestPlaceholder, List.map_cons, List.foldr_cons]
    rcases List.mem_cons.1 ha with rfl | ha
    · exact Nat.le_max_left _ _
    · exact (ih ha).trans (Nat.le_max_right _ _)

theorem FirstOf.append {i k : ℕ} (h : FirstOf pre i k) (rest : List τ) :
    FirstOf (pre ++ rest) i k := by
  obtain ⟨hi, hfirst⟩ := h
  have hlt : i < (pre.map isPlaceholder).length := (List.getElem?_eq_some_iff.1 hi).1
  refine ⟨by rw [List.map_append, List.getElem?_append_left hlt, hi], fun j hj => ?_⟩
  rw [List.map_append, List.getElem?_append_left (by omega)]
  exact hfirst j hj

theorem FirstOf.unique {i j k : ℕ} (h : FirstOf AL i k) (h' : FirstOf AL j k) : i = j := by
  rcases Nat.lt_trichotomy i j with hij | rfl | hij
  · exact absurd h.1 (h'.2 i hij)
  · rfl
  · exact absurd h'.1 (h.2 j hij)

theorem exists_firstOf {k : ℕ} (h : k ∈ AL.map isPlaceholder) : ∃ i, FirstOf AL i k := by
  have hex := List.mem_iff_getElem?.1 h
  exact ⟨Nat.find hex, Nat.find_spec hex, fun j hj => Nat.find_min hex hj⟩

/-- A first occurrence is there already, or is the one of the argument that is added. -/
theorem firstOf_append_singleton {a : τ} {i k : ℕ} (h : FirstOf (pre ++ [a]) i k) :
    FirstOf pre i k ∨ i = pre.length ∧ isPlaceholder a = k ∧ k ∉ pre.map isPlaceholder := by
  obtain ⟨hi, hfirst⟩ := h
  rw [List.map_append] at hi hfirst
  rcases Nat.lt_trichotomy i pre.length with hlt | rfl | hlt
  · rw [List.getElem?_append_left (by simpa using hlt)] at hi
    refine .inl ⟨hi, fun j hj => ?_⟩
    have := hfirst j hj
    rwa [List.getElem?_append_left (by simpa using hj.trans hlt)] at this
  · refine .inr ⟨rfl, by simpa using hi, fun hmem => ?_⟩
    obtain ⟨j, hj, hjk⟩ := List.mem_iff_getElem.1 hmem
    refine hfirst j (by simpa using hj) ?_
    rw [List.getElem?_append_left hj, List.getElem?_eq_getElem hj, hjk]
  · have := (List.getElem?_eq_some_iff.1 hi).1
    simp only [List.length_append, List.length_map, List.length_singleton] at this
    omega

/-! ## The recursion -/

/-- What `helper` has done when it has parsed the arguments `pre`. -/
structure Parsed (PL : List τ) (N : ℕ) (pre : List τ) (result : List (Option τ))
    (seen : List τ) : Prop where
  length : result.length = N
  seen_of_mem : ∀ a ∈ pre, isPlaceholder a ≠ 0 → a ∈ seen
  mem_of_seen : ∀ a ∈ seen, a ∈ pre ∧ isPlaceholder a ≠ 0
  /-- Only elements of placeholders that were seen are set. -/
  set : ∀ (k : ℕ) ty, result[k]? = some (some ty) → k + 1 ∈ seen.map isPlaceholder
  /-- While no placeholder has two types, its element is that of its first occurrence. -/
  first : (seen.map isPlaceholder).Nodup → ∀ i k, FirstOf pre i (k + 1) → k < N →
    result[k]? = some PL[i]?

theorem parsed_nil : Parsed PL N [] (List.replicate N none) [] where
  length := List.length_replicate
  seen_of_mem := by simp
  mem_of_seen := by simp
  set := by simp [List.getElem?_replicate]
  first := by simp [FirstOf]

theorem Parsed.skip (h : Parsed PL N pre result seen) {a : τ}
    (ha : ¬ (isPlaceholder a ≠ 0 ∧ a ∉ seen)) : Parsed PL N (pre ++ [a]) result seen where
  length := h.length
  seen_of_mem b hb hph := by
    rcases List.mem_append.1 hb with hb | hb
    · exact h.seen_of_mem b hb hph
    · rw [List.mem_singleton.1 hb] at hph ⊢
      by_contra hnot
      exact ha ⟨hph, hnot⟩
  mem_of_seen b hb := ⟨List.mem_append_left _ (h.mem_of_seen b hb).1, (h.mem_of_seen b hb).2⟩
  set := h.set
  first hnodup i k hfirst hk := by
    rcases firstOf_append_singleton hfirst with hfirst | ⟨-, hak, hnot⟩
    · exact h.first hnodup i k hfirst hk
    · have hmem : a ∈ seen := by
        by_contra hnot'
        exact ha ⟨by omega, hnot'⟩
      exact absurd (List.mem_map.2 ⟨a, (h.mem_of_seen a hmem).1, hak⟩) hnot

theorem Parsed.push (h : Parsed PL N pre result seen) {a : τ} (hph : isPlaceholder a ≠ 0)
    (hN : isPlaceholder a - 1 < result.length) :
    Parsed PL N (pre ++ [a]) (result.set (isPlaceholder a - 1) PL[pre.length]?)
      (seen ++ [a]) where
  length := by rw [List.length_set, h.length]
  seen_of_mem b hb hb' := by
    rcases List.mem_append.1 hb with hb | hb
    · exact List.mem_append_left _ (h.seen_of_mem b hb hb')
    · exact List.mem_append_right _ hb
  mem_of_seen b hb := by
    rcases List.mem_append.1 hb with hb | hb
    · exact ⟨List.mem_append_left _ (h.mem_of_seen b hb).1, (h.mem_of_seen b hb).2⟩
    · exact ⟨List.mem_append_right _ hb, List.mem_singleton.1 hb ▸ hph⟩
  set k ty hk := by
    rw [List.map_append, List.mem_append]
    by_cases heq : isPlaceholder a - 1 = k
    · exact .inr (by simp; omega)
    · rw [List.getElem?_set_ne heq] at hk
      exact .inl (h.set k ty hk)
  first hnodup i k hfirst hk := by
    rw [List.map_append, List.map_singleton, List.nodup_append] at hnodup
    obtain ⟨hseen, -, hdisj⟩ := hnodup
    rcases firstOf_append_singleton hfirst with hfirst | ⟨rfl, hak, -⟩
    · -- placeholder `k` was seen, so `a` is another one
      have hmem : k + 1 ∈ pre.map isPlaceholder := List.mem_iff_getElem?.2 ⟨i, hfirst.1⟩
      obtain ⟨b, hb, hbk⟩ := List.mem_map.1 hmem
      have hbseen : b ∈ seen := h.seen_of_mem b hb (by omega)
      have hne : isPlaceholder b ≠ isPlaceholder a :=
        hdisj _ (List.mem_map_of_mem hbseen) _ (List.mem_singleton_self _)
      rw [List.getElem?_set_ne (by omega)]
      exact h.first hseen i k hfirst hk
    · have hak' : isPlaceholder a - 1 = k := by omega
      rw [hak'] at hN ⊢
      rw [List.getElem?_set_self hN]

theorem map_some_reduceOption {α : Type} : ∀ {l : List (Option α)}, none ∉ l →
    l.reduceOption.map some = l
  | [], _ => rfl
  | none :: l, h => absurd List.mem_cons_self h
  | some a :: l, h => by
    rw [List.reduceOption_cons_of_some, List.map_cons,
      map_some_reduceOption fun hl => h (List.mem_cons_of_mem _ hl)]

theorem numbers_subset (hseen : ∀ a ∈ seen, isPlaceholder a ≠ 0 ∧ isPlaceholder a ≤ N) :
    (seen.map isPlaceholder).toFinset ⊆ (Finset.range N).image (· + 1) := by
  intro m hm
  obtain ⟨a, ha, rfl⟩ := List.mem_map.1 (List.mem_toFinset.1 hm)
  obtain ⟨hpos, hle⟩ := hseen a ha
  exact Finset.mem_image.2 ⟨isPlaceholder a - 1, Finset.mem_range.2 (by omega), by omega⟩

/-- Numbers that are not repeated, from 1 to `N`. -/
theorem card_numbers (hnodup : (seen.map isPlaceholder).Nodup)
    (hseen : ∀ a ∈ seen, isPlaceholder a ≠ 0 ∧ isPlaceholder a ≤ N) : seen.length ≤ N := by
  have hcard := Finset.card_le_card (numbers_subset hseen)
  rwa [List.toFinset_card_of_nodup hnodup, List.length_map,
    Finset.card_image_of_injective _ (add_left_injective 1), Finset.card_range] at hcard

/-- All numbers from 1 to `N`. -/
theorem numbers_card (h : ∀ k < N, k + 1 ∈ seen.map isPlaceholder) :
    N ≤ (seen.map isPlaceholder).toFinset.card := by
  have hsub : (Finset.range N).image (· + 1) ⊆ (seen.map isPlaceholder).toFinset := by
    intro m hm
    obtain ⟨k, hk, rfl⟩ := Finset.mem_image.1 hm
    exact List.mem_toFinset.2 (h k (Finset.mem_range.1 hk))
  have hcard := Finset.card_le_card hsub
  rwa [Finset.card_image_of_injective _ (add_left_injective 1), Finset.card_range] at hcard

theorem numbers_of_length (hnodup : (seen.map isPlaceholder).Nodup)
    (hseen : ∀ a ∈ seen, isPlaceholder a ≠ 0 ∧ isPlaceholder a ≤ seen.length) :
    ∀ k < seen.length, k + 1 ∈ seen.map isPlaceholder := by
  have heq := Finset.eq_of_subset_of_card_le (numbers_subset hseen) (by
    rw [List.toFinset_card_of_nodup hnodup, List.length_map,
      Finset.card_image_of_injective _ (add_left_injective 1), Finset.card_range])
  intro k hk
  rw [← List.mem_toFinset, heq]
  exact Finset.mem_image.2 ⟨k, Finset.mem_range.2 hk, rfl⟩

/-- If every number up to `N` was seen in `N` types, no number was seen in two. -/
theorem nodup_of_seen (hlen : seen.length = N)
    (h : ∀ k < N, k + 1 ∈ seen.map isPlaceholder) : (seen.map isPlaceholder).Nodup := by
  have hcard := numbers_card h
  have hdedup : (seen.map isPlaceholder).dedup = seen.map isPlaceholder := by
    refine (List.dedup_sublist _).eq_of_length_le ?_
    rw [List.length_map, hlen]
    exact hcard
  exact List.dedup_eq_self.1 hdedup

/-- While no number is seen twice, the computation is done when all numbers have occurred. -/
theorem Parsed.length_seen_iff (h : Parsed PL N pre result seen)
    (hnodup : (seen.map isPlaceholder).Nodup) (hle : ∀ a ∈ pre, isPlaceholder a ≤ N) :
    seen.length = N ↔ ∀ k < N, k + 1 ∈ pre.map isPlaceholder := by
  have hseen : ∀ a ∈ seen, isPlaceholder a ≠ 0 ∧ isPlaceholder a ≤ N := fun a ha =>
    ⟨(h.mem_of_seen a ha).2, hle a (h.mem_of_seen a ha).1⟩
  constructor
  · rintro rfl k hk
    obtain ⟨a, ha, hak⟩ := List.mem_map.1 (numbers_of_length hnodup hseen k hk)
    exact List.mem_map.2 ⟨a, (h.mem_of_seen a ha).1, hak⟩
  · intro hall
    refine Nat.le_antisymm (card_numbers hnodup hseen) ?_
    have hcard : (seen.map isPlaceholder).toFinset.card = seen.length := by
      rw [List.toFinset_card_of_nodup hnodup, List.length_map]
    rw [← hcard]
    refine numbers_card fun k hk => ?_
    obtain ⟨a, ha, hak⟩ := List.mem_map.1 (hall k hk)
    exact List.mem_map.2 ⟨a, h.seen_of_mem a ha (by omega), hak⟩

/-- Every element is set when all numbers have occurred, each in one form. -/
theorem Parsed.none_notMem (h : Parsed PL N pre result seen)
    (hnodup : (seen.map isPlaceholder).Nodup) (hPL : pre.length ≤ PL.length)
    (hall : ∀ k < N, k + 1 ∈ pre.map isPlaceholder) : none ∉ result := by
  intro hnone
  obtain ⟨k, hk, hget⟩ := List.getElem_of_mem hnone
  have hkN : k < N := h.length ▸ hk
  obtain ⟨i, hi⟩ := exists_firstOf (hall k hkN)
  have hilt : i < PL.length := by
    have := (List.getElem?_eq_some_iff.1 hi.1).1
    rw [List.length_map] at this
    omega
  have hset := h.first hnodup i k hi hkN
  rw [List.getElem?_eq_getElem hk, hget, List.getElem?_eq_getElem hilt] at hset
  cases hset

variable [DecidableEq τ]

/-- A successful run has parsed arguments up to one, where it has seen as many as it is looking
for and has set every element. -/
theorem parsed_of_mapHelper : ∀ (AL pre : List τ) {seen : List τ} {result : List (Option τ)}
    {L : List τ},
    PL.length = (pre ++ AL).length → Parsed PL N pre result seen →
    mapHelper PL N AL result seen (seen.length == N) = .ok L →
    ∃ pre' rest result' seen', pre ++ AL = pre' ++ rest ∧ Parsed PL N pre' result' seen'
      ∧ seen'.length = N ∧ none ∉ result' ∧ result'.reduceOption = L
  | AL, pre, seen, result, L, hlen, hp, h => by
    by_cases hdone : seen.length = N
    · rw [hdone, beq_self_eq_true] at h
      unfold mapHelper at h
      split_ifs at h with hseen hresult hnone
      exact ⟨pre, AL, result, seen, rfl, hp, hdone, hnone, Except.ok.inj h⟩
    · rw [beq_eq_false_iff_ne.2 hdone] at h
      cases AL with
      | nil =>
        unfold mapHelper at h
        cases h
      | cons a AL =>
        have harg : PL.length - (a :: AL).length = pre.length := by
          rw [hlen, List.length_append, Nat.add_sub_cancel]
        have hlen' : PL.length = (pre ++ [a] ++ AL).length := by
          simpa [Nat.add_assoc, Nat.add_comm 1] using hlen
        have hsplit : pre ++ a :: AL = pre ++ [a] ++ AL := by simp
        unfold mapHelper at h
        dsimp only at h
        rw [harg] at h
        rw [hsplit]
        by_cases hparse : isPlaceholder a ≠ 0 ∧ a ∉ seen
        · simp only [if_pos hparse] at h
          split_ifs at h with hpl hidx
          exact parsed_of_mapHelper AL _ hlen' (hp.push hparse.1 (by omega)) h
        · simp only [if_neg hparse] at h
          split_ifs at h with hpl hidx
          exact parsed_of_mapHelper AL _ hlen' (hp.skip hparse) h

theorem mapPlaceholderToType_eq (PL AL : List τ) : mapPlaceholderToType PL AL
    = mapHelper PL (largestPlaceholder AL) AL (List.replicate (largestPlaceholder AL) none) []
      (([] : List τ).length == largestPlaceholder AL) := by
  have hdone : (largestPlaceholder AL == 0)
      = (([] : List τ).length == largestPlaceholder AL) := by
    rw [List.length_nil, Bool.eq_iff_iff, beq_iff_eq, beq_iff_eq, eq_comm]
  rw [mapPlaceholderToType, maxPlaceholder_eq, Nat.zero_max, hdone]

/-- What a successful computation has parsed: arguments up to one, with all numbers among them,
each in one form. -/
theorem parsed_of_mapPlaceholderToType {L : List τ} (hlen : PL.length = AL.length)
    (h : mapPlaceholderToType PL AL = .ok L) : ∃ pre rest seen, AL = pre ++ rest
      ∧ Parsed PL (largestPlaceholder AL) pre (L.map some) seen
      ∧ (seen.map isPlaceholder).Nodup
      ∧ ∀ k < largestPlaceholder AL, k + 1 ∈ seen.map isPlaceholder := by
  rw [mapPlaceholderToType_eq] at h
  obtain ⟨pre, rest, result, seen, hsplit, hp, hseen, hnone, hL⟩ :=
    parsed_of_mapHelper AL [] hlen parsed_nil h
  rw [List.nil_append] at hsplit
  have hsome : result = L.map some := by rw [← hL, map_some_reduceOption hnone]
  have hfilled : ∀ k < largestPlaceholder AL, k + 1 ∈ seen.map isPlaceholder := by
    intro k hk
    have hk' : k < L.length := by
      rw [← hp.length, hsome, List.length_map] at hk
      exact hk
    exact hp.set k L[k] (by simp [hsome, hk'])
  exact ⟨pre, rest, seen, hsplit, hsome ▸ hp, nodup_of_seen hseen hfilled, hfilled⟩

/-- A parameter list that type-checks has one element for each placeholder, the parameter at its
first occurrence. -/
theorem mapPlaceholderToType_firstOf {L : List τ} (hlen : PL.length = AL.length)
    (h : mapPlaceholderToType PL AL = .ok L) : L.length = largestPlaceholder AL
      ∧ ∀ k < L.length, ∃ i, FirstOf AL i (k + 1) ∧ L[k]? = PL[i]? := by
  obtain ⟨pre, rest, seen, hsplit, hp, hnodup, hfilled⟩ := parsed_of_mapPlaceholderToType hlen h
  have hlength : L.length = largestPlaceholder AL := by rw [← hp.length, List.length_map]
  refine ⟨hlength, fun k hk => ?_⟩
  obtain ⟨a, ha, hak⟩ := List.mem_map.1 (hfilled k (hlength ▸ hk))
  obtain ⟨i, hi⟩ := exists_firstOf (List.mem_map.2 ⟨a, (hp.mem_of_seen a ha).1, hak⟩)
  have hget := hp.first hnodup i k hi (hlength ▸ hk)
  rw [List.getElem?_map, List.getElem?_eq_getElem hk, Option.map_some,
    Option.some.injEq] at hget
  exact ⟨i, hsplit ▸ hi.append rest, by rw [List.getElem?_eq_getElem hk, hget]⟩

/-! ## What is accepted -/

omit [DecidableEq τ] in
/-- Before all numbers have occurred, an argument that was not seen has a new number. -/
theorem Parsed.notMem_of_late {a : τ} {rest : List τ} (hp : Parsed PL N pre result seen)
    (hN : largestPlaceholder (pre ++ a :: rest) = N) (hlate : SecondFormsLate (pre ++ a :: rest))
    (hmissing : ¬ ∀ k < N, k + 1 ∈ pre.map isPlaceholder) (hph : isPlaceholder a ≠ 0)
    (ha : a ∉ seen) : isPlaceholder a ∉ seen.map isPlaceholder := by
  intro hmem
  obtain ⟨b, hb, hba⟩ := List.mem_map.1 hmem
  obtain ⟨i, hi, hib⟩ := List.getElem_of_mem (hp.mem_of_seen b hb).1
  have hbi : (pre ++ a :: rest)[i]? = some b := by
    rw [List.getElem?_append_left hi, List.getElem?_eq_getElem hi, hib]
  have hai : (pre ++ a :: rest)[pre.length]? = some a := by simp
  have hall := hlate i pre.length b a hi hbi hai hph hba (by rintro rfl; exact ha hb)
  rw [List.take_left' rfl, hN] at hall
  exact hmissing hall

omit [DecidableEq τ] in
theorem nodup_snoc {a : τ} (hnodup : (seen.map isPlaceholder).Nodup)
    (hnew : isPlaceholder a ∉ seen.map isPlaceholder) :
    ((seen ++ [a]).map isPlaceholder).Nodup := by
  rw [List.map_append, List.map_singleton, List.nodup_append]
  refine ⟨hnodup, List.nodup_singleton _, fun m hm n hn => ?_⟩
  rw [List.mem_singleton.1 hn]
  rintro rfl
  exact hnew hm

/-- The computation gets through when all numbers occur, and each comes in a second form only
after that. -/
theorem exists_mapHelper : ∀ (AL pre : List τ) {seen : List τ} {result : List (Option τ)},
    PL.length = (pre ++ AL).length → Parsed PL N pre result seen →
    (seen.map isPlaceholder).Nodup → largestPlaceholder (pre ++ AL) = N →
    AllOccur (pre ++ AL) → SecondFormsLate (pre ++ AL) →
    ∃ L, mapHelper PL N AL result seen (seen.length == N) = .ok L
  | AL, pre, seen, result, hlen, hp, hnodup, hN, hoccur, hlate => by
    have hle : ∀ a ∈ pre, isPlaceholder a ≤ N := fun a ha =>
      hN ▸ le_largestPlaceholder (List.mem_append_left AL ha)
    have hdone := hp.length_seen_iff hnodup hle
    have hPL : pre.length ≤ PL.length := by
      rw [hlen, List.length_append]
      omega
    by_cases hseen : seen.length = N
    · have hnone := hp.none_notMem hnodup hPL (hdone.1 hseen)
      refine ⟨result.reduceOption, ?_⟩
      rw [hseen, beq_self_eq_true]
      unfold mapHelper
      rw [if_neg (by simp [hseen]), if_neg (by simp [hp.length]), if_neg hnone]
    · rw [beq_eq_false_iff_ne.2 hseen]
      cases AL with
      | nil =>
        rw [AllOccur, List.append_nil] at hoccur
        rw [List.append_nil] at hN
        exact absurd (hdone.2 fun k hk => hoccur k (hN ▸ hk)) hseen
      | cons a AL =>
        have harg : PL.length - (a :: AL).length = pre.length := by
          rw [hlen, List.length_append, Nat.add_sub_cancel]
        have hsplit : pre ++ a :: AL = pre ++ [a] ++ AL := by simp
        have hpl : ¬ PL.length < (a :: AL).length := by
          rw [hlen, List.length_append]
          omega
        have hpos : 0 < N := Nat.pos_of_ne_zero fun h0 => hseen (hdone.2 fun k hk => by omega)
        have hleN : isPlaceholder a ≤ N := hN ▸ le_largestPlaceholder (by simp)
        rw [hsplit] at hlen hN hoccur hlate
        unfold mapHelper
        dsimp only
        rw [harg, if_neg hpl]
        by_cases hparse : isPlaceholder a ≠ 0 ∧ a ∉ seen
        · have hidx : ¬ result.length ≤ isPlaceholder a - 1 := by rw [hp.length]; omega
          have hnew := hp.notMem_of_late (hsplit ▸ hN) (hsplit ▸ hlate)
            (fun hall => hseen (hdone.2 hall)) hparse.1 hparse.2
          simp only [if_pos hparse, if_neg hidx]
          exact exists_mapHelper AL (pre ++ [a]) hlen (hp.push hparse.1 (by omega))
            (nodup_snoc hnodup hnew) hN hoccur hlate
        · have hidx : ¬ result.length ≤ 0 := by rw [hp.length]; omega
          simp only [if_neg hparse, if_neg hidx]
          exact exists_mapHelper AL (pre ++ [a]) hlen (hp.skip hparse) hnodup hN hoccur hlate

/-- What type-checks are the lists in which every number occurs, and a placeholder comes in a
second form only after that. -/
theorem mapPlaceholderToType_isOk_iff (hlen : PL.length = AL.length) :
    (∃ L, mapPlaceholderToType PL AL = .ok L) ↔ AllOccur AL ∧ SecondFormsLate AL := by
  constructor
  · rintro ⟨L, h⟩
    obtain ⟨pre, rest, seen, rfl, hp, hnodup, hfilled⟩ := parsed_of_mapPlaceholderToType hlen h
    have hpre : ∀ k < largestPlaceholder (pre ++ rest), k + 1 ∈ pre.map isPlaceholder := by
      intro k hk
      obtain ⟨a, ha, hak⟩ := List.mem_map.1 (hfilled k hk)
      exact List.mem_map.2 ⟨a, (hp.mem_of_seen a ha).1, hak⟩
    refine ⟨fun k hk => ?_, fun i j a b hij hi hj hb hab hne k hk => ?_⟩
    · rw [List.map_append]
      exact List.mem_append_left _ (hpre k hk)
    · by_cases hjlt : j < pre.length
      · -- both forms were seen, and no number was seen twice
        rw [List.getElem?_append_left (hij.trans hjlt)] at hi
        rw [List.getElem?_append_left hjlt] at hj
        have ha' := hp.seen_of_mem a (List.mem_of_getElem? hi) (hab ▸ hb)
        have hb' := hp.seen_of_mem b (List.mem_of_getElem? hj) hb
        exact absurd (List.inj_on_of_nodup_map hnodup ha' hb' hab) hne
      · rw [List.take_append, List.take_of_length_le (Nat.le_of_not_lt hjlt), List.map_append]
        exact List.mem_append_left _ (hpre k hk)
  · rintro ⟨hoccur, hlate⟩
    rw [mapPlaceholderToType_eq]
    exact exists_mapHelper AL [] hlen parsed_nil List.nodup_nil rfl hoccur hlate

/-- The type computation is exact unless every number occurs, and a placeholder comes in a second
form before they all have. -/
theorem mapPlaceholderToType_exact_iff (hlen : PL.length = AL.length) :
    MapsPlaceholders PL AL ↔ (AllOccur AL → SecondFormsLate AL) := by
  constructor
  · intro h hoccur
    exact ((mapPlaceholderToType_isOk_iff hlen).1 (h.accepts.2 hoccur)).2
  · intro hlate
    refine ⟨?_, fun L hL => (mapPlaceholderToType_firstOf hlen hL).1, fun L hL i k hi => ?_⟩
    · rw [mapPlaceholderToType_isOk_iff hlen]
      exact ⟨fun h => h.1, fun h => ⟨h, hlate h⟩⟩
    · obtain ⟨hL', hfirst⟩ := mapPlaceholderToType_firstOf hlen hL
      have hk : k < L.length := by
        obtain ⟨a, ha, hak⟩ := List.mem_map.1 (List.mem_of_getElem? hi.1)
        have := le_largestPlaceholder ha
        omega
      obtain ⟨j, hj, hget⟩ := hfirst k hk
      rwa [hi.unique hj]

section Samples

/-- `int`, and placeholders as lvalues and as rvalues. -/
inductive Form
  | int
  | lvalue (number : ℕ)
  | rvalue (number : ℕ)
  deriving DecidableEq

instance : ArgTraits Form where
  isPlaceholder
    | .int => 0
    | .lvalue number | .rvalue number => number
  isOption _ := false

/-- Both numbers occur, but the first comes in two forms before the second. -/
theorem secondForm_not_mapsPlaceholders :
    let PL : List Form := [.int, .int, .int]
    let AL : List Form := [.lvalue 1, .rvalue 1, .lvalue 2]
    PL.length = AL.length ∧ AllOccur AL
      ∧ mapPlaceholderToType PL AL
        = .error (.staticAssert "Void cannot appear in the resulting type")
      ∧ ¬ MapsPlaceholders PL AL := by
  intro PL AL
  have hoccur : AllOccur AL := by
    unfold AllOccur
    decide
  have herror : mapPlaceholderToType PL AL
      = .error (.staticAssert "Void cannot appear in the resulting type") := by decide
  refine ⟨rfl, hoccur, herror, fun h => ?_⟩
  obtain ⟨L, hL⟩ := h.accepts.2 hoccur
  rw [herror] at hL
  cases hL

theorem mapPlaceholderToType_exact_iff_swapped :
    MapsPlaceholders [.int, .int, .int] [.lvalue 2, .lvalue 1, (.rvalue 2 : Form)]
      ↔ (AllOccur [.lvalue 2, .lvalue 1, (.rvalue 2 : Form)]
        → SecondFormsLate [.lvalue 2, .lvalue 1, (.rvalue 2 : Form)]) :=
  mapPlaceholderToType_exact_iff rfl

end Samples

end Meta

/-! ## The layout of the wrapper -/

open ArgTraits Cpp LLVM

section

variable {τ : Type} [Cpp τ] {PL : List τ} {args : List (Actual τ)} {C₀ C : Context}

/-- The context has a placeholder where the call has one. -/
theorem placeholders_setParameters {as : List (Actual τ)} (hC : setParameters PL C₀ as = .ok C)
    (h₀ : C₀.argumentMapping = []) {i k : ℕ} (hi : i < PL.length) :
    C.argumentMapping[i]? = some (.forward k)
      ↔ ((as.map (·.type)).map isPlaceholder)[i]? = some (k + 1) := by
  obtain ⟨hlen, -⟩ := argumentMapping_setParameters hC
  have hi' : i < as.length := by omega
  obtain ⟨r, hr, hrec⟩ := argumentMapping_getElem? hC h₀ (List.getElem?_eq_getElem hi)
    (List.getElem?_eq_getElem hi')
  rw [hr, Option.some.injEq, ← Argument.forwardIdx_eq_some, recorded_forwardIdx hrec]
  simp [hi']

/-- The call has arguments for the parameters, and after them options. -/
structure OptionsLast (PL : List τ) (args opts : List (Actual τ)) : Prop where
  length : args.length = PL.length
  plain : ∀ a ∈ args, isOption a.type = false
  options : ∀ o ∈ opts, isOption o.type = true

namespace OptionsLast

variable {opts : List (Actual τ)}

theorem discardOptions (h : OptionsLast PL args opts) :
    Meta.discardOptions ((args ++ opts).map (·.type)) = args.map (·.type) := by
  rw [Meta.discardOptions_eq, List.map_append, List.filter_append,
    List.filter_eq_self.2 (by simpa using h.plain),
    List.filter_eq_nil_iff.2 (by simpa using h.options), List.append_nil]

/-- The context has the placeholders of the arguments, and no others. -/
theorem forward_iff (h : OptionsLast PL args opts) (h₀ : C₀.argumentMapping = [])
    (hC : setParameters PL C₀ (args ++ opts) = .ok C) {i k : ℕ} :
    C.argumentMapping[i]? = some (.forward k)
      ↔ ((args.map (·.type)).map isPlaceholder)[i]? = some (k + 1) := by
  have hlen := h.length
  by_cases hi : i < PL.length
  · rw [placeholders_setParameters hC h₀ hi, List.map_append, List.map_append,
      List.getElem?_append_left (by simp [hlen, hi])]
  · have hsize : C.argumentMapping.length = PL.length := size_setParameters hC h₀
    rw [List.getElem?_eq_none (by omega), List.getElem?_eq_none (by simp [hlen]; omega)]
    simp

end OptionsLast

variable [DecidableEq τ]

/-- The parameter types that are computed for the wrapper at compile time are those it has at run
time. `layoutOf F` is the layout of a function that does not return a struct. -/
theorem wrapper_signature_eq (lower : τ → Ty) {opts : List (Actual τ)} {L : List τ}
    {F : FunctionInfo} (hlen : args.length = PL.length)
    (hargs : ∀ a ∈ args, isOption a.type = false) (hopts : ∀ o ∈ opts, isOption o.type = true)
    (hL : Meta.parameterList PL ((args ++ opts).map (·.type)) = .ok L)
    (h₀ : C₀.argumentMapping = []) (hC : setParameters PL C₀ (args ++ opts) = .ok C)
    (hF : F.params = PL.map lower) : ∃ new, getNewLayout C (layoutOf F) = .ok new
      ∧ L.length = (getWrapperTy new).length ∧ L.map lower = getWrapperTy new := by
  have hsize : C.size = F.params.length := by rw [size_setParameters hC h₀, hF, List.length_map]
  have hlast : OptionsLast PL args opts := ⟨hlen, hargs, hopts⟩
  rw [Meta.parameterList, hlast.discardOptions] at hL
  obtain ⟨hN, hfirst⟩ := Meta.mapPlaceholderToType_firstOf (by simp [hlen]) hL
  have hforward {i k : ℕ} : C.argumentMapping[i]? = some (.forward k)
      ↔ ((args.map (·.type)).map isPlaceholder)[i]? = some (k + 1) := hlast.forward_iff h₀ hC
  have hfirstAt {i k : ℕ} (h : Meta.FirstOf (args.map (·.type)) i (k + 1)) : FirstAt C i k :=
    ⟨hforward.2 h.1, fun j hj hj' => h.2 j hj (hforward.1 hj')⟩
  have hmem (k : ℕ) : k ∈ C.placeholders ↔ k < L.length := by
    rw [Context.mem_placeholders]
    refine ⟨fun ⟨i, hi⟩ => ?_, fun hk => ?_⟩
    · obtain ⟨a, ha, hak⟩ := List.mem_map.1 (List.mem_iff_getElem?.2 ⟨i, hforward.1 hi⟩)
      have := Meta.le_largestPlaceholder ha
      omega
    · obtain ⟨i, hi, -⟩ := hfirst k hk
      exact ⟨i, hforward.2 hi.1⟩
  have hnum : numNewArgs C = L.length := numNewArgs_eq hmem
  have hself {k : ℕ} (hk : k ≤ L.length) : C.wrapperParam k = k :=
    Context.wrapperParam_eq_self fun j hj => (hmem j).2 (by omega)
  have hlength : L.length = (getWrapperTy (newLayoutOf C F)).length := by
    show _ = ((newArgs C F.params).flatMap (·.types)).length
    rw [wrapperTypes_length hsize, hnum, hself le_rfl]
  refine ⟨newLayoutOf C F, getNewLayout_eq hsize, hlength, ?_⟩
  refine List.ext_getElem? fun k => ?_
  by_cases hk : k < L.length
  · obtain ⟨i, hi, hget⟩ := hfirst k hk
    rw [List.getElem?_eq_getElem hk] at hget
    have hty : F.params[i]? = some (lower L[k]) := by rw [hF, List.getElem?_map, ← hget]; rfl
    have hwrapper := wrapperTypes_firstAt hsize (hfirstAt hi) hty
    rw [hself hk.le] at hwrapper
    rw [List.getElem?_map, List.getElem?_eq_getElem hk, Option.map_some]
    exact hwrapper.symm
  · rw [List.getElem?_eq_none (by simpa using hk), List.getElem?_eq_none (by omega)]

end

section

open Sample

theorem wrapper_signature_eq_swapped :
    let PL : List CppType := [.int, .int, .pointer]
    let args : List (Actual CppType) :=
      [object (.placeholder 2) [], object .int [7, 0, 0, 0], object (.placeholder 1) []]
    let opts : List (Actual CppType) := [object .optLevel [3, 0, 0, 0, 2, 0, 0, 0]]
    let lower : CppType → Ty := fun ty => if ty = .int then .int 32 else .ptr (.int 8)
    let F := function 0 "f" [.int 32, .int 32, .ptr (.int 8)]
    let L : List CppType := [.pointer, .int]
    Meta.parameterList PL ((args ++ opts).map (·.type)) = .ok L
      ∧ ∃ C new, setParameters PL {} (args ++ opts) = .ok C
        ∧ getNewLayout C (layoutOf F) = .ok new
        ∧ L.length = (getWrapperTy new).length ∧ L.map lower = getWrapperTy new := by
  intro PL args opts lower F L
  have hL : Meta.parameterList PL ((args ++ opts).map (·.type)) = .ok L := by decide
  have hC : setParameters PL {} (args ++ opts)
      = .ok ⟨[.forward 1, .int 7, .forward 0], 3, 2, "", [], {}⟩ := by decide
  obtain ⟨new, hnew⟩ := wrapper_signature_eq lower rfl (by decide) (by decide) hL rfl hC
    (show F.params = PL.map lower by decide)
  exact ⟨hL, _, new, hC, hnew⟩

end

end EasyJit
