import EasyJit.ReservedRegs
import Mathlib.Data.List.Induction

/-!
# Whose registers are reserved

A `Compile` sets `g_reservedRegs` before it generates code, and its caller keeps the context
until it returns, so the hook reads the list it was given (`Inv.read_compileAndWrap`).
`deserialize` sets nothing: what the hook finds there is null, or was left behind by an earlier
call of the thread, whatever is in it. So the hook reads the list of the operation it runs for
exactly when it runs in no deserialisation (`readsOwnRegs_iff`).
-/

namespace EasyJit.ReservedRegs

section History

def callStep (m : ThreadId → Option Call) : Event → ThreadId → Option Call
  | .compile t C => Function.update m t (some (.compile C))
  | .deserialize t => Function.update m t (some .deserialize)
  | _ => m

/-- The call each thread made last. -/
def lastCall (es : List Event) : ThreadId → Option Call := es.foldl callStep fun _ => none

/-- How many calls a thread has made, and which of them set its `g_reservedRegs`. -/
structure Calls where
  made : ℕ
  setBy : Option ℕ

def callsStep (m : ThreadId → Calls) : Event → ThreadId → Calls
  | .compile t _ | .deserialize t => Function.update m t ⟨(m t).made + 1, (m t).setBy⟩
  | .setReservedRegs t _ => Function.update m t ⟨(m t).made, some (m t).made⟩
  | _ => m

def calls (es : List Event) : ThreadId → Calls := es.foldl callsStep fun _ => ⟨0, none⟩

variable {es : List Event} {e : Event}

theorem lastCall_snoc : lastCall (es ++ [e]) = callStep (lastCall es) e := by simp [lastCall]

theorem calls_snoc : calls (es ++ [e]) = callsStep (calls es) e := by simp [calls]

end History

/-- The list in `g_reservedRegs` is that of the call the thread made last. -/
def Calls.IsOwn (c : Calls) : Prop := c.setBy = some c.made

/-- No call that has still to be made has set the list. -/
def Calls.Ordered (c : Calls) : Prop := ∀ k ∈ c.setBy, k ≤ c.made

/-- The call that set the list is one before the last. -/
def Calls.Earlier (c : Calls) : Prop := ∀ k ∈ c.setBy, k < c.made

theorem Calls.Ordered.succ {c : Calls} (h : c.Ordered) :
    (Calls.mk (c.made + 1) c.setBy).Earlier := fun k hk => Nat.lt_succ_of_le (h k hk)

theorem Calls.Earlier.ordered {c : Calls} (h : c.Earlier) : c.Ordered := fun k hk =>
  Nat.le_of_lt (h k hk)

theorem Calls.Earlier.not_isOwn {c : Calls} (h : c.Earlier) : ¬ c.IsOwn := fun hown =>
  Nat.lt_irrefl _ (h c.made hown)

/-- What is known of who set the list of a thread, by where the thread is. -/
def Phase.Owned : Phase → Calls → Prop
  | .compileAndWrap _, c => c.IsOwn
  | .deserializeAndWrap, c => c.Earlier
  | _, c => c.Ordered

theorem Phase.Owned.ordered {p : Phase} {c : Calls} (h : p.Owned c) : c.Ordered := by
  cases p with
  | compileAndWrap C =>
    rintro k hk
    rw [Phase.Owned, Calls.IsOwn] at h
    obtain rfl : c.made = k := by simpa [h] using hk
    exact Nat.le_refl _
  | deserializeAndWrap => exact Calls.Earlier.ordered h
  | idle => exact h
  | compiling C => exact h
  | optimized C => exact h

/-- What holds after the events `es`. -/
structure Inv (es : List Event) (s : State) : Prop where
  call : ∀ t c, (s.phase t).call = some c → lastCall es t = some c
  /-- The context of a `Compile` exists until it returns. -/
  live : ∀ t C, (s.phase t).call = some (.compile C) → ∃ l, s.contexts C = some l
  set : ∀ t C, s.phase t = .compileAndWrap C → s.reservedRegs t = some C
  owned : ∀ t, (s.phase t).Owned (calls es t)

variable {es : List Event} {s s' : State} {t t' : ThreadId} {C : ContextPtr} {p : Phase}
  {e : Event}

@[simp] theorem State.phase_enter : (s.enter t p).phase = Function.update s.phase t p := rfl

theorem inv_init : Inv [] .init where
  call t c h := by cases h
  live t C h := by cases h
  set t C h := by cases h
  owned t k h := by cases h

/-- A thread goes to another phase: what is known of every thread's phase has to be shown for the
new one only. -/
theorem forall_enter {P : ThreadId → Phase → Prop} (hp : P t p) (h : ∀ t', P t' (s.phase t')) :
    ∀ t', P t' ((s.enter t p).phase t') :=
  (Function.forall_update_iff s.phase P).2 ⟨hp, fun t' _ => h t'⟩

/-- A context no `Compile` holds changes, or goes. -/
theorem live_update (h : Inv es s) (hC : s.Unused C) (o : Option (List String)) (t : ThreadId)
    (C' : ContextPtr) (ht : (s.phase t).call = some (.compile C')) :
    ∃ l, Function.update s.contexts C o C' = some l := by
  have hne : C' ≠ C := by
    rintro rfl
    exact hC t ht
  rw [Function.update_of_ne hne]
  exact h.live t C' ht

theorem live_step (h : Inv es s) (he : Step s e s') :
    ∀ t C, (s'.phase t).call = some (.compile C) → ∃ l, s'.contexts C = some l := by
  have enter : ∀ t p, (∀ C, p.call = some (.compile C) → ∃ l, s.contexts C = some l) →
      ∀ t' C, ((s.enter t p).phase t').call = some (.compile C) → ∃ l, s.contexts C = some l :=
    fun t p hp => forall_enter (P := fun _ q =>
      ∀ C, q.call = some (.compile C) → ∃ l, s.contexts C = some l) hp h.live
  cases he with
  | setRawBytes regs hC => exact live_update h hC _
  | destroyContext hC => exact live_update h hC _
  | compile ht hC => exact enter _ _ (by rintro C ⟨⟩; exact ⟨_, hC⟩)
  | hookGetReservedRegs ht =>
    exact enter _ _ (by rintro C ⟨⟩; exact h.live _ _ (by rw [ht]; rfl))
  | setReservedRegs ht =>
    exact enter _ _ (by rintro C ⟨⟩; exact h.live _ _ (by rw [ht]; rfl))
  | deserialize ht => exact enter _ _ (by rintro C ⟨⟩)
  | getReservedRegs ht hh => exact h.live
  | leave ht => exact enter _ _ (by rintro C ⟨⟩)

theorem set_step (h : Inv es s) (he : Step s e s') :
    ∀ t C, s'.phase t = .compileAndWrap C → s'.reservedRegs t = some C := by
  have enter : ∀ t p, (∀ C, p ≠ .compileAndWrap C) →
      ∀ t' C, (s.enter t p).phase t' = .compileAndWrap C → s.reservedRegs t' = some C :=
    fun t p hp => forall_enter (P := fun t' q => ∀ C, q = .compileAndWrap C →
      s.reservedRegs t' = some C) (fun C hC => absurd hC (hp C)) h.set
  cases he with
  | setRawBytes regs hC => exact h.set
  | destroyContext hC => exact h.set
  | compile ht hC => exact enter _ _ (by rintro C ⟨⟩)
  | hookGetReservedRegs ht => exact enter _ _ (by rintro C ⟨⟩)
  | @setReservedRegs t C ht =>
    intro t' C' ht'
    by_cases htt : t' = t
    · subst htt
      simp only [State.phase_enter, Function.update_self, Phase.compileAndWrap.injEq] at ht'
      simp [ht']
    · simp only [State.phase_enter, Function.update_of_ne htt] at ht'
      simpa [Function.update_of_ne htt] using h.set t' C' ht'
  | deserialize ht => exact enter _ _ (by rintro C ⟨⟩)
  | getReservedRegs ht hh => exact h.set
  | leave ht => exact enter _ _ (by rintro C ⟨⟩)

theorem call_step (h : Inv es s) (he : Step s e s') :
    ∀ t c, (s'.phase t).call = some c → callStep (lastCall es) e t = some c := by
  -- a thread that goes on with its call
  have goOn : ∀ t p, p.call = (s.phase t).call ∨ p.call = none →
      ∀ t' c, ((s.enter t p).phase t').call = some c → lastCall es t' = some c :=
    fun t p hp => forall_enter (P := fun t' q => ∀ c, q.call = some c → lastCall es t' = some c)
      (fun c hc => by
        rcases hp with hp | hp
        · exact h.call t c (hp ▸ hc)
        · rw [hp] at hc
          cases hc) h.call
  -- a thread that makes one
  have begin : ∀ t p c₀, p.call = some c₀ → ∀ t' c, ((s.enter t p).phase t').call = some c →
      Function.update (lastCall es) t (some c₀) t' = some c := by
    intro t p c₀ hp t' c hc
    by_cases htt : t' = t
    · subst htt
      rw [State.phase_enter, Function.update_self, hp] at hc
      rw [Function.update_self, hc]
    · rw [State.phase_enter, Function.update_of_ne htt] at hc
      rw [Function.update_of_ne htt]
      exact h.call t' c hc
  cases he with
  | setRawBytes regs hC => exact h.call
  | destroyContext hC => exact h.call
  | compile ht hC => exact begin _ _ _ rfl
  | hookGetReservedRegs ht => exact goOn _ _ (.inl (by rw [ht]; rfl))
  | setReservedRegs ht => exact goOn _ _ (.inl (by rw [ht]; rfl))
  | deserialize ht => exact begin _ _ _ rfl
  | getReservedRegs ht hh => exact h.call
  | leave ht => exact goOn _ _ (.inr rfl)

theorem owned_step (h : Inv es s) (he : Step s e s') :
    ∀ t, (s'.phase t).Owned (callsStep (calls es) e t) := by
  -- a thread that does not change what it has called or set
  have goOn : ∀ t p, p.Owned (calls es t) → ∀ t', ((s.enter t p).phase t').Owned (calls es t') :=
    fun t p hp => forall_enter (P := fun t' q => q.Owned (calls es t')) hp h.owned
  -- and one that does
  have update : ∀ t p c, p.Owned c →
      ∀ t', ((s.enter t p).phase t').Owned (Function.update (calls es) t c t') := by
    intro t p c hp t'
    by_cases htt : t' = t
    · subst htt
      simpa using hp
    · simpa [Function.update_of_ne htt] using h.owned t'
  have ordered : ∀ t, (calls es t).Ordered := fun t => (h.owned t).ordered
  cases he with
  | setRawBytes regs hC => exact h.owned
  | destroyContext hC => exact h.owned
  | compile ht hC => exact update _ _ _ (ordered _).succ.ordered
  | hookGetReservedRegs ht => exact goOn _ _ (ordered _)
  | setReservedRegs ht => exact update _ _ _ rfl
  | deserialize ht => exact update _ _ _ (ordered _).succ
  | getReservedRegs ht hh => exact h.owned
  | leave ht => exact goOn _ _ (ordered _)

theorem inv_step (h : Inv es s) (he : Step s e s') : Inv (es ++ [e]) s' where
  call := by
    rw [lastCall_snoc]
    exact call_step h he
  live := live_step h he
  set := set_step h he
  owned := by
    rw [calls_snoc]
    exact owned_step h he

theorem inv_run (h : Run es s) : Inv es s := by
  induction h with
  | nil => exact inv_init
  | snoc _ he ih => exact inv_step ih he

/-- An event of a run happens in the state the events before it lead to. -/
theorem Run.step {pre post : List Event} (h : Run (pre ++ e :: post) s) :
    ∃ s₀ s₁, Run pre s₀ ∧ Step s₀ e s₁ := by
  induction post using List.reverseRecOn generalizing s with
  | nil =>
    generalize hf : pre ++ [e] = f at h
    cases h with
    | nil => simp at hf
    | snoc h' he =>
      obtain ⟨rfl, ⟨⟩⟩ := List.append_inj' hf rfl
      exact ⟨_, _, h', he⟩
  | append_singleton post e' ih =>
    rw [← List.cons_append, ← List.append_assoc] at h
    generalize hf : pre ++ e :: post ++ [e'] = f at h
    cases h with
    | nil => simp at hf
    | snoc h' _ =>
      obtain ⟨rfl, -⟩ := List.append_inj' hf rfl
      exact ih h'

/-- In a `Compile` the hook reads the list of the context that was given. -/
theorem Inv.read_compileAndWrap (h : Inv es s) (ht : s.phase t = .compileAndWrap C) :
    ∃ l, s.ownRegs t = some l ∧ s.read t = .regs l := by
  obtain ⟨l, hl⟩ := h.live t C (by rw [ht]; rfl)
  refine ⟨l, by simp [State.ownRegs, ht, hl], ?_⟩
  simp [State.read, h.set t C ht, hl]

/-- Whenever the hook runs, the list it reads was set by the operation it generates code for, and
holds that operation's registers: those in the context of a `Compile`, and none in a
`deserialize`. -/
def ReadsOwnRegs (es : List Event) : Prop :=
  ∀ pre t post s, es = pre ++ .getReservedRegs t :: post → Run pre s →
    Step s (.getReservedRegs t) s →
      (calls pre t).IsOwn ∧ ∃ l, s.ownRegs t = some l ∧ s.read t = .regs l

/-- The hook runs in no `deserialize`. -/
def HookedInCompile (es : List Event) : Prop :=
  ∀ pre t post, es = pre ++ .getReservedRegs t :: post → lastCall pre t ≠ some .deserialize

/-- In a run the hook reads nothing but the operation's own registers exactly when it runs for no
deserialisation. -/
theorem readsOwnRegs_iff (h : Run es s) : ReadsOwnRegs es ↔ HookedInCompile es := by
  constructor
  · intro hown pre t post hes hcall
    obtain ⟨s₀, s₁, hpre, he⟩ := Run.step (hes ▸ h)
    have hinv := inv_run hpre
    cases he with
    | getReservedRegs hgen hh =>
      obtain ⟨hset, -⟩ := hown pre t post s₀ hes hpre (.getReservedRegs hgen hh)
      generalize hp : s₀.phase t = p at hgen
      cases hgen with
      | compileAndWrap C =>
        have := hinv.call t (.compile C) (by rw [hp]; rfl)
        rw [hcall] at this
        cases this
      | deserializeAndWrap =>
        have hearlier : (calls pre t).Earlier := by simpa [hp, Phase.Owned] using hinv.owned t
        exact hearlier.not_isOwn hset
  · intro hcompile pre t post s hes hpre he
    have hinv := inv_run hpre
    cases he with
    | getReservedRegs hgen hh =>
      generalize hp : s.phase t = p at hgen
      cases hgen with
      | compileAndWrap C =>
        have hset : (calls pre t).IsOwn := by simpa [hp, Phase.Owned] using hinv.owned t
        exact ⟨hset, hinv.read_compileAndWrap hp⟩
      | deserializeAndWrap =>
        have hcall := hinv.call t .deserialize (by rw [hp]; rfl)
        exact absurd hcall (hcompile pre t post hes)

/-- A thread deserialises before there is a hook, and then compiles while another one does. -/
theorem readsOwnRegs_compiles :
    ReadsOwnRegs [.deserialize 1, .leave 1, .setRawBytes 1 ["r12"], .setRawBytes 2 [],
      .compile 0 1, .compile 1 2, .hookGetReservedRegs 0, .setReservedRegs 0 1,
      .hookGetReservedRegs 1, .setReservedRegs 1 2, .getReservedRegs 0, .getReservedRegs 1] := by
  have h1 := Run.nil.snoc (.deserialize (t := 1) rfl)
  have h2 := h1.snoc (.leave (t := 1) (by decide))
  have h3 := h2.snoc (.setRawBytes (C := 1) ["r12"] fun t h => by
    by_cases ht : t = 1 <;> simp [State.init, State.enter, ht, Phase.call] at h)
  have h4 := h3.snoc (.setRawBytes (C := 2) [] fun t h => by
    by_cases ht : t = 1 <;> simp [State.init, State.enter, ht, Phase.call] at h)
  have h5 := h4.snoc (.compile (t := 0) (C := 1) rfl rfl)
  have h6 := h5.snoc (.compile (t := 1) (C := 2) rfl rfl)
  have h7 := h6.snoc (.hookGetReservedRegs (t := 0) rfl)
  have h8 := h7.snoc (.setReservedRegs (t := 0) rfl)
  have h9 := h8.snoc (.hookGetReservedRegs (t := 1) rfl)
  have h10 := h9.snoc (.setReservedRegs (t := 1) rfl)
  have h11 := h10.snoc (.getReservedRegs (t := 0) (.compileAndWrap 1) rfl)
  have h12 := h11.snoc (.getReservedRegs (t := 1) (.compileAndWrap 2) rfl)
  refine (readsOwnRegs_iff h12).2 fun pre t post hes hcall => ?_
  simp [List.cons_eq_append_iff] at hes
  obtain ⟨es, rfl, ⟨rfl, rfl, rfl⟩ | ⟨rfl, rfl, rfl⟩⟩ := hes
  · cases hcall
  · cases hcall

/-- The hook a `Compile` on one thread installed finds a null pointer when another thread
deserialises. -/
theorem not_readsOwnRegs_otherThread : ¬ ∀ es s, Run es s → ReadsOwnRegs es := by
  intro h
  have h1 := Run.nil.snoc (.setRawBytes (C := 1) ["r12"] fun t h => by cases h)
  have h2 := h1.snoc (.compile (t := 0) (C := 1) rfl rfl)
  have h3 := h2.snoc (.hookGetReservedRegs (t := 0) rfl)
  have h4 := h3.snoc (.setReservedRegs (t := 0) rfl)
  have h5 := h4.snoc (.leave (t := 0) (by decide))
  have h6 := h5.snoc (.deserialize (t := 1) rfl)
  have h7 := h6.snoc (.getReservedRegs (t := 1) .deserializeAndWrap rfl)
  obtain ⟨-, l, -, hr⟩ := h _ _ h7 _ 1 [] _ rfl h6 (.getReservedRegs .deserializeAndWrap rfl)
  cases hr

end EasyJit.ReservedRegs
