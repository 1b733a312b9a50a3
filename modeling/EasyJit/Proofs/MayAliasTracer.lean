import EasyJit.MayAliasTracer

/-!
# What the alias tracer sees

The tracer is a depth-first traversal of pairs of a value and the way it is looked at
(`trace_ofSeen`), so that it ends, and has found what its rules lead to (`mayAliasTracer_exact`). It
follows what is stored into an alloca, but not what is stored into a global variable
(`mayAliasTracer_seesStored_iff`).
-/

namespace EasyJit

open Traverse

section

variable {ν : Type} [DecidableEq ν] (G : ValueGraph ν)

/-- Looking at a value. -/
def trace (n : ℕ) (x : Mode × ν) (S : TracerState ν) : Option (TracerState ν) :=
  match x.1 with
  | .loaded => mayAliasWithLoadedValues G n x.2 S
  | .stored => mayAliasWithStoredValues G n x.2 S

def TracerState.visited (S : TracerState ν) : Mode → List ν
  | .loaded => S.loaded
  | .stored => S.stored

def TracerState.see (S : TracerState ν) (x : Mode × ν) : TracerState ν :=
  TracerState.insertGO G (match x.1 with
    | .loaded => { S with loaded := x.2 :: S.loaded }
    | .stored => { S with stored := x.2 :: S.stored }) x.2

/-- The state in which these values have been looked at, the last one first. -/
def TracerState.ofSeen : List (Mode × ν) → TracerState ν
  | [] => {}
  | x :: seen => (ofSeen seen).see G x

variable {G} {n : ℕ} {x : Mode × ν} {S : TracerState ν} {seen : List (Mode × ν)}

/-! ## The tracer is a traversal -/

theorem trace_of_mem (h : x.2 ∈ S.visited x.1) : trace G (n + 1) x S = some S := by
  obtain ⟨m, V⟩ := x
  cases m with
  | loaded =>
    have hV : V ∈ S.loaded := h
    simp only [trace, mayAliasWithLoadedValues, if_pos hV]
  | stored =>
    have hV : V ∈ S.stored := h
    simp only [trace, mayAliasWithStoredValues, if_pos hV]

theorem trace_of_notMem (h : x.2 ∉ S.visited x.1) : trace G (n + 1) x S
    = (expand G x).foldlM (fun S y => trace G n y S) (S.see G x) := by
  obtain ⟨m, V⟩ := x
  cases m with
  | loaded =>
    have hV : V ∉ S.loaded := h
    simp only [trace, mayAliasWithLoadedValues, if_neg hV, TracerState.see, expand]
    cases G.kind V with
    | constantExpr opcode operand rest => cases opcode <;> simp
    | globalVariable isConstant initializer => cases initializer <;> simp
    | _ => simp [List.foldlM_map]
  | stored =>
    have hV : V ∉ S.stored := h
    simp only [trace, mayAliasWithStoredValues, if_neg hV, TracerState.see, expand]
    cases G.kind V <;> simp [List.foldlM_map]

theorem TracerState.insertGO_visited (m : Mode) (V : ν) :
    (TracerState.insertGO G S V).visited m = S.visited m := by
  unfold insertGO
  split_ifs <;> cases m <;> rfl

theorem TracerState.mem_visited : ∀ {seen : List (Mode × ν)} {m : Mode} {V : ν},
    V ∈ (ofSeen G seen).visited m ↔ (m, V) ∈ seen
  | [], m, V => by cases m <;> simp [ofSeen, visited]
  | (m', V') :: seen, m, V => by
    rw [ofSeen, see, insertGO_visited, List.mem_cons, Prod.mk.injEq, ← mem_visited]
    cases m <;> cases m' <;> simp [visited]

theorem TracerState.mem_gos : ∀ (seen : List (Mode × ν)) {V : ν},
    V ∈ (ofSeen G seen).gos ↔ (G.kind V).isGlobalObject = true ∧ ∃ m, (m, V) ∈ seen
  | [], V => by simp [ofSeen]
  | (m', V') :: seen, V => by
    have ih := mem_gos seen (V := V)
    have hgos : ((ofSeen G seen).see G (m', V')).gos
        = if (G.kind V').isGlobalObject then (ofSeen G seen).gos.insert V'
          else (ofSeen G seen).gos := by
      unfold see insertGO
      cases m' <;> split_ifs <;> rfl
    rw [ofSeen, hgos]
    split_ifs with hk
    · simp only [List.mem_insert_iff, ih, List.mem_cons, Prod.mk.injEq]
      constructor
      · rintro (rfl | ⟨hV, m, hm⟩)
        · exact ⟨hk, m', .inl ⟨rfl, rfl⟩⟩
        · exact ⟨hV, m, .inr hm⟩
      · rintro ⟨hV, m, ⟨rfl, rfl⟩ | hm⟩
        · exact .inl rfl
        · exact .inr ⟨hV, m, hm⟩
    · simp only [ih, List.mem_cons, Prod.mk.injEq]
      constructor
      · rintro ⟨hV, m, hm⟩
        exact ⟨hV, m, .inr hm⟩
      · rintro ⟨hV, m, ⟨rfl, rfl⟩ | hm⟩
        · exact absurd hV hk
        · exact ⟨hV, m, hm⟩

/-- The tracer goes where the traversal goes. -/
theorem trace_ofSeen : ∀ {n : ℕ} {x : Mode × ν} {seen : List (Mode × ν)},
    trace G n x (.ofSeen G seen) = (visit (expand G) n x seen).map (.ofSeen G)
  | 0, (m, V), seen => by cases m <;> rfl
  | n + 1, x, seen => by
    rw [visit]
    by_cases hx : x ∈ seen
    · rw [trace_of_mem (TracerState.mem_visited.2 hx), if_pos hx]
      rfl
    · rw [trace_of_notMem fun h => hx (TracerState.mem_visited.1 h), if_neg hx]
      exact Traverse.foldlM_map (TracerState.ofSeen G) (fun seen y => trace_ofSeen) _ (x :: seen)

/-- The tracer ends, at any depth from some on, and has looked at a value in a way if that can be
reached from where it started. -/
theorem mayAliasWithLoadedValues_spec (G : ValueGraph ν) (V : ν) :
    ∃ S, (∀ n, 2 * G.values.length < n → mayAliasWithLoadedValues G n V {} = some S)
      ∧ (∀ m U, U ∈ S.visited m ↔ Reaches (expand G) (.loaded, V) (m, U))
      ∧ ∀ U, U ∈ S.gos ↔ (G.kind U).isGlobalObject = true
        ∧ ∃ m, Reaches (expand G) (.loaded, V) (m, U) := by
  have hnodes (x : Mode × ν) : x ∈ G.values.map (Prod.mk Mode.loaded)
      ++ G.values.map (Prod.mk Mode.stored) := by
    obtain ⟨m, U⟩ := x
    cases m <;> simp [G.mem_values]
  have hbound : unseen (G.values.map (Prod.mk Mode.loaded) ++ G.values.map (Prod.mk Mode.stored)) []
      < 2 * G.values.length + 1 := by
    refine Nat.lt_succ_of_le (Nat.le_trans (List.length_filter_le _ _) ?_)
    simp only [List.length_append, List.length_map]
    omega
  obtain ⟨seen, hseen⟩ : ∃ seen, visit (expand G) (2 * G.values.length + 1) (.loaded, V) []
      = some seen := exists_visit hnodes hbound
  refine ⟨.ofSeen G seen, fun n hn => ?_, fun m U => ?_, fun U => ?_⟩
  · have htrace : trace G n (.loaded, V) (.ofSeen G [])
        = (visit (expand G) n (.loaded, V) []).map (.ofSeen G) := trace_ofSeen
    rwa [visit_of_le hn hseen] at htrace
  · rw [TracerState.mem_visited, mem_visit_iff hseen]
  · rw [TracerState.mem_gos]
    simp only [mem_visit_iff hseen]

theorem mayAliasTracer_spec (G : ValueGraph ν) (V : ν) : ∃ S, mayAliasTracer G V = some S
    ∧ (∀ m U, U ∈ S.visited m ↔ Reaches (expand G) (.loaded, V) (m, U))
    ∧ ∀ U, U ∈ S.gos ↔ (G.kind U).isGlobalObject = true
      ∧ ∃ m, Reaches (expand G) (.loaded, V) (m, U) := by
  obtain ⟨S, hS, hspec⟩ := mayAliasWithLoadedValues_spec G V
  exact ⟨S, hS _ (Nat.lt_succ_self _), hspec⟩

theorem count_iff {V X : ν} : MayAliasTracer.count G V X = true
    ↔ (G.kind X).isGlobalObject = true ∧ ∃ m, Reaches (expand G) (.loaded, V) (m, X) := by
  obtain ⟨S, hS, -, hgos⟩ := mayAliasTracer_spec G V
  rw [MayAliasTracer.count, hS, Option.any_some, decide_eq_true_iff, hgos]

/-! ## The rules -/

omit [DecidableEq ν] in
theorem follows_of_mem_expand_loaded {V : ν} {y : Mode × ν} (h : y ∈ expand G (.loaded, V)) :
    Follows G (.loaded, V) y := by
  cases hk : G.kind V with
  | phi incoming =>
    simp only [expand, hk, List.mem_map] at h
    obtain ⟨U, hU, rfl⟩ := h
    exact .phi hk hU
  | select condition trueValue falseValue =>
    simp only [expand, hk, List.mem_cons, List.not_mem_nil, or_false] at h
    rcases h with rfl | rfl
    · exact .trueValue hk
    · exact .falseValue hk
  | alloca size =>
    simp only [expand, hk, List.mem_singleton] at h
    exact h ▸ .memory (by rw [hk]; rfl)
  | getElementPtr base indices =>
    simp only [expand, hk, List.mem_singleton] at h
    exact h ▸ .getElementPtr hk
  | bitCast source =>
    simp only [expand, hk, List.mem_singleton] at h
    exact h ▸ .bitCast hk
  | constantExpr opcode base rest =>
    cases opcode with
    | getElementPtr =>
      simp only [expand, hk, List.mem_singleton] at h
      exact h ▸ .constantExpr hk (.inl rfl)
    | bitCast =>
      simp only [expand, hk, List.mem_singleton] at h
      exact h ▸ .constantExpr hk (.inr rfl)
    | other => simp [expand, hk] at h
  | globalVariable isConstant initializer =>
    cases initializer with
    | none =>
      simp only [expand, hk, List.mem_singleton] at h
      exact h ▸ .memory (by rw [hk]; rfl)
    | some init =>
      simp only [expand, hk, List.mem_cons, List.not_mem_nil, or_false] at h
      rcases h with rfl | rfl
      · exact .initializer hk
      · exact .memory (by rw [hk]; rfl)
  | constantArray elements =>
    simp only [expand, hk, List.mem_map] at h
    obtain ⟨U, hU, rfl⟩ := h
    exact .element hk hU
  | _ => simp [expand, hk] at h

omit [DecidableEq ν] in
theorem follows_of_mem_expand_stored {V : ν} {y : Mode × ν} (h : y ∈ expand G (.stored, V)) :
    Follows G (.stored, V) y := by
  have huser (hV : (G.kind V).isFollowed = true)
      (h : y ∈ (G.users V).map (Prod.mk .stored)) : Follows G (.stored, V) y := by
    obtain ⟨U, hU, rfl⟩ := List.mem_map.1 h
    exact .user hV ((G.mem_users V U).1 hU)
  cases hk : G.kind V with
  | alloca size | getElementPtr base indices | bitCast source =>
    simp only [expand, hk] at h
    exact huser (by rw [hk]; rfl) h
  | store value pointer =>
    simp only [expand, hk, List.mem_singleton] at h
    exact h ▸ .store hk
  | memcpy callee dest source rest =>
    simp only [expand, hk, List.mem_singleton] at h
    exact h ▸ .memcpy hk
  | _ => simp [expand, hk] at h

omit [DecidableEq ν] in
theorem mem_expand_of_follows {x y : Mode × ν} (h : Follows G x y) : y ∈ expand G x := by
  cases h with
  | phi hk hU | element hk hU => simp [expand, hk, hU]
  | constantExpr hk hopcode => rcases hopcode with rfl | rfl <;> simp [expand, hk]
  | @memory V hV =>
    cases hk : G.kind V with
    | alloca size => simp [expand, hk]
    | globalVariable isConstant initializer => cases initializer <;> simp [expand, hk]
    | _ => simp [hk, ValueKind.isMemoryObject] at hV
  | @user V U hV hU =>
    cases hk : G.kind V with
    | alloca _ | getElementPtr _ _ | bitCast _ => simpa [expand, hk, G.mem_users] using hU
    | _ => simp [hk, ValueKind.isFollowed] at hV
  | trueValue hk | falseValue hk | getElementPtr hk | bitCast hk | initializer hk | store hk
  | memcpy hk => simp [expand, hk]

omit [DecidableEq ν] in
theorem mem_expand_iff {x y : Mode × ν} : y ∈ expand G x ↔ Follows G x y := by
  refine ⟨fun h => ?_, mem_expand_of_follows⟩
  obtain ⟨m, V⟩ := x
  cases m with
  | loaded => exact follows_of_mem_expand_loaded h
  | stored => exact follows_of_mem_expand_stored h

/-- The tracer ends, and has found the functions and variables that the rules lead to from the
value it starts at, in whatever order it looks at operands and users. -/
theorem mayAliasTracer_exact (G : ValueGraph ν) (V : ν) :
    ∃ S, (∀ n, 2 * G.values.length < n → mayAliasWithLoadedValues G n V {} = some S)
      ∧ mayAliasTracer G V = some S
      ∧ ∀ X, X ∈ S.gos ↔ (G.kind X).isGlobalObject = true
        ∧ ∃ m, Relation.ReflTransGen (Follows G) (.loaded, V) (m, X) := by
  obtain ⟨S, hS, -, hgos⟩ := mayAliasWithLoadedValues_spec G V
  have hrules : Reaches (expand G) = Relation.ReflTransGen (Follows G) := by
    unfold Reaches
    simp only [mem_expand_iff]
  refine ⟨S, hS, hS _ (Nat.lt_succ_self _), fun X => ?_⟩
  rw [hgos, hrules]

/-! ## What is written into memory -/

omit [DecidableEq ν] in
theorem ValueKind.of_isGlobalVariable {k : ValueKind ν} (h : k.isGlobalVariable = true) :
    ∃ isConstant initializer, k = .globalVariable isConstant initializer := by
  cases k with
  | globalVariable isConstant initializer => exact ⟨isConstant, initializer, rfl⟩
  | _ => cases h

omit [DecidableEq ν] in
theorem ValueKind.isaConstant_of_isGlobalObject {k : ValueKind ν} (h : k.isGlobalObject = true) :
    k.isaConstant = true := by
  cases k with
  | function _ | globalVariable _ _ => rfl
  | _ => cases h

theorem kind_of_isCastOf {p q : ν} (h : G.isCastOf p q = true) :
    (∃ indices, G.kind q = .getElementPtr p indices) ∨ G.kind q = .bitCast p
      ∨ ∃ opcode rest, G.kind q = .constantExpr opcode p rest := by
  unfold ValueGraph.isCastOf at h
  split at h
  · next hk =>
    cases of_decide_eq_true h
    exact .inl ⟨_, hk⟩
  · next hk =>
    cases of_decide_eq_true h
    exact .inr (.inl hk)
  · next hk =>
    cases of_decide_eq_true h
    exact .inr (.inr ⟨_, _, hk⟩)
  · next hk =>
    cases of_decide_eq_true h
    exact .inr (.inr ⟨_, _, hk⟩)
  · cases h

/-- A value that is derived from an alloca is an instruction whose users are followed. -/
theorem Derived.reaches {O p : ν} (hO : ∃ size, G.kind O = .alloca size)
    (h : G.Derived O p) : (G.kind p).isInstruction = true
      ∧ expand G (.stored, p) = (G.users p).map (Prod.mk .stored)
      ∧ Reaches (expand G) (.loaded, O) (.stored, p) := by
  induction h with
  | refl =>
    obtain ⟨size, hO⟩ := hO
    refine ⟨by rw [hO]; rfl, by rw [expand, hO], .single ?_⟩
    simp [expand, hO]
  | @tail p q _ hq ih =>
    obtain ⟨hinst, hexpand, hreach⟩ := ih
    have hstep (hoperand : p ∈ (G.kind q).operands) :
        Reaches (expand G) (.loaded, O) (.stored, q) := by
      refine hreach.tail ?_
      rw [hexpand]
      exact List.mem_map_of_mem ((G.mem_users _ _).2 hoperand)
    rcases kind_of_isCastOf hq with ⟨indices, hk⟩ | hk | ⟨opcode, rest, hk⟩
    · refine ⟨by rw [hk]; rfl, by rw [expand, hk], hstep ?_⟩
      rw [hk]
      exact List.mem_cons_self
    · refine ⟨by rw [hk]; rfl, by rw [expand, hk], hstep ?_⟩
      rw [hk]
      exact List.mem_cons_self
    · -- no instruction is an operand of a constant
      have hconst := G.constant_operands q (by rw [hk]; rfl) p
        (by rw [hk]; exact List.mem_cons_self)
      rw [hinst] at hconst
      cases hconst

/-- What is written into an alloca is followed. -/
theorem Writes.reaches {O w : ν} (hO : ∃ size, G.kind O = .alloca size) (h : G.Writes O w) :
    Reaches (expand G) (.loaded, O) (.loaded, w) := by
  obtain ⟨U, p, hp, hU⟩ := h
  obtain ⟨-, hexpand, hreach⟩ := Derived.reaches hO hp
  have huser : Reaches (expand G) (.loaded, O) (.stored, U) := by
    refine hreach.tail ?_
    rw [hexpand]
    refine List.mem_map_of_mem ((G.mem_users _ _).2 ?_)
    rcases hU with hU | ⟨callee, rest, hU⟩ <;> simp [hU, ValueKind.operands]
  refine huser.tail ?_
  rcases hU with hU | ⟨callee, rest, hU⟩ <;> simp [expand, hU]

omit [DecidableEq ν] in
/-- A function or variable is only looked at for what is stored in it after it was looked at as a
loaded value. -/
theorem eq_of_stored_mem_expand {x : Mode × ν} {X : ν} (hX : (G.kind X).isGlobalObject = true)
    (h : (.stored, X) ∈ expand G x) :
    x = (.loaded, X) ∧ (G.kind X).isGlobalVariable = true := by
  obtain ⟨m, U⟩ := x
  cases m with
  | loaded =>
    unfold expand at h
    dsimp only at h
    split at h
    all_goals simp at h
    all_goals subst h
    all_goals simp_all [ValueKind.isGlobalObject, ValueKind.isGlobalVariable]
  | stored =>
    exfalso
    have huser (hU : (G.kind U).isInstruction = true) (h : X ∈ G.users U) : False := by
      rw [G.constant_operands X (ValueKind.isaConstant_of_isGlobalObject hX) U
        ((G.mem_users _ _).1 h)] at hU
      cases hU
    unfold expand at h
    dsimp only at h
    split at h
    all_goals simp at h
    all_goals
      next hk => exact huser (by rw [hk]; rfl) h

omit [DecidableEq ν] in
theorem reaches_loaded {V X : ν} {m : Mode} (hX : (G.kind X).isGlobalObject = true)
    (h : Reaches (expand G) (.loaded, V) (m, X)) :
    Reaches (expand G) (.loaded, V) (.loaded, X) := by
  cases m with
  | loaded => exact h
  | stored =>
    rcases Relation.ReflTransGen.cases_tail h with heq | ⟨x, hx, hstep⟩
    · cases heq
    · obtain ⟨rfl, -⟩ := eq_of_stored_mem_expand hX hstep
      exact hx

omit [DecidableEq ν] in
theorem reachesLocally_reaches {x y : Mode × ν} (h : ReachesLocally G x y) :
    Reaches (expand G) x y := by
  refine Relation.ReflTransGen.mono (fun a b hab => ?_) _ _ h
  dsimp only at hab
  split at hab
  · cases hab
  · exact hab

omit [DecidableEq ν] in
/-- What is written into the global variables that are reached adds nothing when what it is
itself, short of other global variables, is reached. -/
theorem reaches_of_local {V w X : ν} {m : Mode} (hX : (G.kind X).isGlobalObject = true)
    (hlocal : ∀ Y, (G.kind Y).isGlobalObject = true → ReachesLocally G (.loaded, w) (.loaded, Y) →
      Reaches (expand G) (.loaded, V) (.loaded, Y))
    (h : Reaches (expand G) (.loaded, w) (m, X)) :
    Reaches (expand G) (.loaded, V) (.loaded, X) := by
  -- along the path, each node is reached from `V`, or locally from `w`
  have hpath (y : Mode × ν) (hy : Reaches (expand G) (.loaded, w) y) :
      Reaches (expand G) (.loaded, V) y ∨ ReachesLocally G (.loaded, w) y := by
    induction hy with
    | refl => exact .inr .refl
    | @tail a b _ hab ih =>
      rcases ih with ih | ih
      · exact .inl (ih.tail hab)
      · cases hglobal : (G.kind a.2).isGlobalVariable with
        | false =>
          refine .inr (ih.tail ?_)
          simpa only [hglobal, Bool.false_eq_true, if_false] using hab
        | true =>
          obtain ⟨m', Y⟩ := a
          obtain ⟨isConstant, initializer, hY⟩ := ValueKind.of_isGlobalVariable hglobal
          cases m' with
          | loaded => exact .inl ((hlocal Y (by rw [hY]; rfl) ih).tail hab)
          | stored =>
            rw [expand, hY] at hab
            cases hab
  rcases hpath _ (reaches_loaded hX h) with h | h
  · exact h
  · exact hlocal X hX h

/-- The tracer sees what is stored exactly when what is written into the global variables it
reaches is reached without that. -/
theorem mayAliasTracer_seesStored_iff (G : ValueGraph ν) (V : ν) :
    SeesStored G V ↔ GlobalWritesReached G V := by
  obtain ⟨S, hS, hvisited, hgos⟩ := mayAliasTracer_spec G V
  have hloaded (O : ν) : O ∈ S.loaded ↔ Reaches (expand G) (.loaded, V) (.loaded, O) :=
    hvisited .loaded O
  have hfound {X : ν} (hX : (G.kind X).isGlobalObject = true) :
      X ∈ S.gos ↔ Reaches (expand G) (.loaded, V) (.loaded, X) :=
    ⟨fun h => reaches_loaded hX ((hgos X).1 h).2.choose_spec, fun h => (hgos X).2 ⟨hX, _, h⟩⟩
  constructor
  · rintro ⟨S', hS', hsees⟩ O hO hOV w hw X hX hlocal
    rw [hS] at hS'
    cases hS'
    have hmem : (G.kind O).isMemoryObject = true := by
      obtain ⟨isConstant, initializer, hk⟩ := ValueKind.of_isGlobalVariable hO
      rw [hk]
      rfl
    exact (hfound hX).1 (hsees O ((hloaded O).2 hOV) hmem w hw X
      (count_iff.2 ⟨hX, _, reachesLocally_reaches hlocal⟩))
  · intro hreached
    refine ⟨S, hS, fun O hO hmem w hw X hcount => ?_⟩
    rw [hloaded] at hO
    obtain ⟨hX, m, hwX⟩ := count_iff.1 hcount
    rw [hfound hX]
    cases hk : G.kind O with
    | alloca size => exact hO.trans ((Writes.reaches ⟨size, hk⟩ hw).trans (reaches_loaded hX hwX))
    | globalVariable isConstant initializer =>
      have hglobal : (G.kind O).isGlobalVariable = true := by rw [hk]; rfl
      exact reaches_of_local hX (hreached O hglobal hO w hw) hwX
    | _ => simp [hk, ValueKind.isMemoryObject] at hmem

end

section Samples

/-- `foo`, `static void (*fp)() = nullptr`, the store of `foo` into `fp`, and a function of the
compiler interface that `fp` is passed to by reference. -/
def staticPointer : ValueGraph (Fin 6) where
  values := List.finRange 6
  mem_values := List.mem_finRange
  kind
    | 0 => .function false
    | 1 => .globalVariable false (some 2)
    | 2 => .constant []
    | 3 => .store 0 1
    | 4 => .function false
    | 5 => .call 4 [1]
  users
    | 0 => [3]
    | 1 => [5, 3]
    | 2 => [1]
    | 4 => [5]
    | _ => []
  mem_users := by decide
  constant_operands := by decide

/-- `foo` is stored into `fp`, and not seen. -/
theorem staticPointer_not_seesStored :
    (staticPointer.kind 1).isMemoryObject = true ∧ staticPointer.Writes 1 0
      ∧ MayAliasTracer.count staticPointer 0 0 = true
      ∧ MayAliasTracer.count staticPointer 1 0 = false ∧ ¬ SeesStored staticPointer 1 := by
  have hwrites : staticPointer.Writes 1 0 := ⟨3, 1, .refl, .inl rfl⟩
  have hcount : MayAliasTracer.count staticPointer 0 0 = true := by decide
  refine ⟨rfl, hwrites, hcount, by decide, ?_⟩
  rintro ⟨S, hS, hsees⟩
  have htrace : mayAliasTracer staticPointer 1 = some ⟨[1], [2, 1], [1]⟩ := by decide
  rw [htrace] at hS
  cases hS
  have := hsees 1 (by decide) rfl 0 hwrites 0 hcount
  revert this
  decide

end Samples

end EasyJit
