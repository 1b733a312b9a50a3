import Mathlib.Data.List.Forall2
import Mathlib.Logic.Function.Basic

/-!
# Computations that may fail

When a sequence of steps, or a loop, succeeds.
-/

theorem List.exists_forall₂ {α β : Type*} {R : α → β → Prop} : ∀ {l : List α},
    (∀ a ∈ l, ∃ b, R a b) → ∃ bs, List.Forall₂ R l bs
  | [], _ => ⟨[], .nil⟩
  | a :: l, h => by
    obtain ⟨b, hb⟩ := h a List.mem_cons_self
    obtain ⟨bs, hbs⟩ := List.exists_forall₂ fun a ha => h a (List.mem_cons_of_mem _ ha)
    exact ⟨b :: bs, .cons hb hbs⟩

namespace Except

universe u

variable {ε : Type*} {α β : Type u}

theorem bind_eq_ok {x : Except ε α} {f : α → Except ε β} {b : β} :
    x >>= f = .ok b ↔ ∃ a, x = .ok a ∧ f a = .ok b := by
  cases x with
  | error e => simp [bind, Except.bind]
  | ok a => simp [bind, Except.bind]

theorem bind_congr {x : Except ε α} {f g : α → Except ε β} (h : ∀ a, x = .ok a → f a = g a) :
    x.bind f = x.bind g := by
  cases x with
  | error e => simp only [Except.bind]
  | ok a => exact h a rfl

theorem map_eq_ok {x : Except ε α} {f : α → β} {b : β} :
    x.map f = .ok b ↔ ∃ a, x = .ok a ∧ f a = b := by
  cases x with
  | error e => simp [Except.map]
  | ok a => simp [Except.map]

theorem mapM_eq_ok {f : α → Except ε β} : ∀ {l : List α} {bs : List β},
    l.mapM f = .ok bs ↔ List.Forall₂ (fun a b => f a = .ok b) l bs
  | [], bs => by simp [pure, Except.pure, eq_comm]
  | a :: l, bs => by
    rw [List.mapM_cons, bind_eq_ok, List.forall₂_cons_left_iff]
    simp only [bind_eq_ok, mapM_eq_ok (l := l), pure, Except.pure, Except.ok.injEq]
    constructor
    · rintro ⟨b, hb, bs', hbs, rfl⟩
      exact ⟨b, bs', hb, hbs, rfl⟩
    · rintro ⟨b, bs', hb, hbs, rfl⟩
      exact ⟨b, hb, bs', hbs, rfl⟩

theorem exists_of_mapM_eq_ok {f : α → Except ε β} {l : List α} {bs : List β}
    (h : l.mapM f = .ok bs) {a : α} (ha : a ∈ l) : ∃ b, f a = .ok b := by
  have hall := mapM_eq_ok.1 h
  obtain ⟨i, hi, rfl⟩ := List.mem_iff_getElem.1 ha
  exact ⟨_, hall.get hi (hall.length_eq ▸ hi)⟩

theorem mapM_congr {f g : α → Except ε β} : ∀ {l : List α}, (∀ a ∈ l, f a = g a) →
    l.mapM f = l.mapM g
  | [], _ => rfl
  | a :: l, h => by
    rw [List.mapM_cons, List.mapM_cons, h a List.mem_cons_self,
      mapM_congr fun a ha => h a (List.mem_cons_of_mem _ ha)]

theorem map_mapM {γ : Type u} {f : α → Except ε β} {k : β → γ} : ∀ {l : List α},
    (l.mapM f).map (List.map k) = l.mapM fun a => (f a).map k
  | [] => rfl
  | a :: l => by
    rw [List.mapM_cons, List.mapM_cons, ← map_mapM]
    cases f a with
    | error e => rfl
    | ok b => cases l.mapM f <;> rfl

theorem foldlM_append_eq_ok {f : β → α → Except ε β} {l l' : List α} {b c : β} :
    (l ++ l').foldlM f b = .ok c ↔ ∃ b', l.foldlM f b = .ok b' ∧ l'.foldlM f b' = .ok c := by
  rw [List.foldlM_append, bind_eq_ok]

/-- A loop whose rounds cannot fail does not. -/
theorem exists_foldlM_eq_ok {f : β → α → Except ε β} : ∀ {l : List α} {b : β},
    (∀ a ∈ l, ∀ b, ∃ c, f b a = .ok c) → ∃ c, l.foldlM f b = .ok c
  | [], b, _ => ⟨b, rfl⟩
  | a :: l, b, h => by
    obtain ⟨b', hb'⟩ := h a List.mem_cons_self b
    obtain ⟨c, hc⟩ := exists_foldlM_eq_ok (b := b') fun a ha => h a (List.mem_cons_of_mem _ ha)
    exact ⟨c, by rw [List.foldlM_cons, bind_eq_ok]; exact ⟨b', hb', hc⟩⟩

/-- A loop whose rounds are loops themselves is one loop. -/
theorem foldlM_flatten_eq_ok {γ : Type u} {f : β → α → Except ε β} {step : β → γ → Except ε β}
    {g : γ → Except ε (List α)} : ∀ {l : List γ} {b c : β},
    (∀ i ∈ l, ∀ b c, step b i = .ok c ↔ ∃ as, g i = .ok as ∧ as.foldlM f b = .ok c) →
    (l.foldlM step b = .ok c ↔ ∃ ass, l.mapM g = .ok ass ∧ ass.flatten.foldlM f b = .ok c)
  | [], b, c, _ => by simp [pure, Except.pure]
  | i :: l, b, c, h => by
    have ih := fun b => foldlM_flatten_eq_ok (l := l) (b := b) (c := c)
      fun j hj => h j (List.mem_cons_of_mem _ hj)
    simp only [List.foldlM_cons, List.mapM_cons, bind_eq_ok, h i List.mem_cons_self, ih]
    constructor
    · rintro ⟨b', ⟨as, has, hb'⟩, ass, hass, hc⟩
      refine ⟨as :: ass, ⟨as, has, ass, hass, rfl⟩, ?_⟩
      rw [List.flatten_cons, foldlM_append_eq_ok]
      exact ⟨b', hb', hc⟩
    · rintro ⟨_, ⟨as, has, ass, hass, heq⟩, hc⟩
      cases heq
      rw [List.flatten_cons, foldlM_append_eq_ok] at hc
      obtain ⟨b', hb', hc⟩ := hc
      exact ⟨b', ⟨as, has, hb'⟩, ass, hass, hc⟩

/-- A loop that gives each of its indices a new value of its own. -/
theorem foldlM_update_eq_ok {ι : Type u} [DecidableEq ι] {g : ι → α → Except ε α} :
    ∀ {l : List ι} {f f' : ι → α}, l.Nodup →
    (l.foldlM (fun f i => g i (f i) >>= fun a => .ok (Function.update f i a)) f = .ok f'
      ↔ (∀ i ∈ l, g i (f i) = .ok (f' i)) ∧ ∀ i ∉ l, f' i = f i)
  | [], f, f', _ => by simp [pure, Except.pure, funext_iff, eq_comm]
  | i :: l, f, f', hl => by
    obtain ⟨hi, hl⟩ := List.nodup_cons.1 hl
    rw [List.foldlM_cons, bind_eq_ok]
    constructor
    · rintro ⟨f₁, h₁, h⟩
      obtain ⟨a, ha, hf₁⟩ := bind_eq_ok.1 h₁
      cases hf₁
      obtain ⟨hmem, hnot⟩ := (foldlM_update_eq_ok hl).1 h
      refine ⟨fun j hj => ?_, fun j hj => ?_⟩
      · rcases List.mem_cons.1 hj with rfl | hj
        · rw [hnot j hi, Function.update_self, ha]
        · have hne : j ≠ i := fun h => hi (h ▸ hj)
          rw [← hmem j hj, Function.update_of_ne hne]
      · have hne : j ≠ i := fun h => hj (h ▸ List.mem_cons_self)
        rw [hnot j fun h => hj (List.mem_cons_of_mem _ h), Function.update_of_ne hne]
    · rintro ⟨hmem, hnot⟩
      refine ⟨Function.update f i (f' i), bind_eq_ok.2 ⟨f' i, hmem i List.mem_cons_self, rfl⟩,
        (foldlM_update_eq_ok hl).2 ⟨fun j hj => ?_, fun j hj => ?_⟩⟩
      · have hne : j ≠ i := fun h => hi (h ▸ hj)
        rw [Function.update_of_ne hne]
        exact hmem j (List.mem_cons_of_mem _ hj)
      · by_cases hji : j = i
        · rw [hji, Function.update_self]
        · rw [Function.update_of_ne hji]
          refine hnot j fun h => ?_
          rcases List.mem_cons.1 h with h | h
          · exact hji h
          · exact hj h

end Except
