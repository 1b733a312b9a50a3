import EasyJit.Sample
import EasyJit.Lib.Except

/-!
# What a call records

`set_parameters` records one argument for each parameter, and options record none
(`argumentMapping_setParameters`). A scalar parameter records what the argument's name converts
to, and a class parameter the bytes of the argument itself, whatever its type is.
-/

namespace EasyJit

open ArgTraits Cpp

variable {τ : Type} [Cpp τ] {P : τ} {a : Actual τ} {C C' : Context}

namespace JitOption

@[simp] theorem handle_argumentMapping (o : JitOption) :
    (o.handle C).argumentMapping = C.argumentMapping := by
  cases o <;> rfl

end JitOption

theorem setOptions_argumentMapping : ∀ {opts : List (Actual τ)} {C : Context},
    setOptions C opts = .ok C' → C'.argumentMapping = C.argumentMapping
  | [], C, h => by
    cases h
    rfl
  | opt :: opts, C, h => by
    unfold setOptions at h
    split_ifs at h
    rw [setOptions_argumentMapping h, JitOption.handle_argumentMapping]

/-! ## One parameter -/

/-- What `set_param` records for an argument that is neither a placeholder nor a wrapper. -/
def recordedPlain (P : τ) (a : Actual τ) : Except CompileError Argument :=
  match category P with
  | .integral => (initialise P a.named toIntegral).map fun v => .int (BitVec.ofInt 64 v)
  | .floating => (initialise P a.named toFloating).map .float
  | .pointer => (initialise P a.named toPointer).map .ptr
  | .class => .ok (.struct a.bytes)
  | .reference | .other => .error .noMatchingFunction

/-- What `set_param` records. -/
def recorded (P : τ) (a : Actual τ) : Except CompileError Argument :=
  if isPlaceholder a.type ≠ 0 then .ok (.forward (isPlaceholder a.type - 1))
  else if isFunctionWrapper a.type then
    if specializationIsPossible P a.type then .ok (.module (Cpp.getFunction a))
    else .error (.staticAssert "easy::jit composition is not possible. Incompatible types.")
  else recordedPlain P a

theorem setPlainParam_eq : setPlainParam P C a = (recordedPlain P a).map C.setArg := by
  unfold setPlainParam recordedPlain
  cases category P with
  | integral =>
    show _ = Except.map _ (Except.map _ _)
    cases initialise P a.named toIntegral <;> rfl
  | floating =>
    show _ = Except.map _ (Except.map _ _)
    cases initialise P a.named toFloating <;> rfl
  | pointer =>
    show _ = Except.map _ (Except.map _ _)
    cases initialise P a.named toPointer <;> rfl
  | reference => rfl
  | «class» => rfl
  | other => rfl

theorem setParam_eq : setParam P C a = (recorded P a).map C.setArg := by
  unfold setParam recorded setSpecialParam isSpecial
  by_cases hph : isPlaceholder a.type = 0
  · by_cases hfw : isFunctionWrapper a.type = true
    · by_cases hpos : specializationIsPossible P a.type = true
      · simp [hph, hfw, hpos, Except.map, Context.setParameterModule]
      · simp [hph, hfw, hpos, Except.map]
    · simp [hph, hfw, setPlainParam_eq]
  · simp [hph, Except.map, Context.setParameterIndex]

theorem setParam_eq_ok : setParam P C a = .ok C' ↔ ∃ r, recorded P a = .ok r ∧ C.setArg r = C' := by
  rw [setParam_eq, Except.map_eq_ok]

/-! ## All parameters -/

/-- One argument is recorded for each parameter, after those that were there. -/
theorem argumentMapping_setParameters : ∀ {PL : List τ} {args : List (Actual τ)} {C : Context},
    setParameters PL C args = .ok C' → PL.length ≤ args.length
      ∧ ∃ rs, C'.argumentMapping = C.argumentMapping ++ rs
        ∧ List.Forall₂ (fun p r => recorded p.1 p.2 = .ok r) (PL.zip args) rs
  | [], args, C, h => by
    unfold setParameters at h
    exact ⟨Nat.zero_le _, [], by rw [setOptions_argumentMapping h, List.append_nil], .nil⟩
  | P :: PL, [], C, h => by
    unfold setParameters at h
    cases h
  | P :: PL, a :: args, C, h => by
    unfold setParameters at h
    obtain ⟨C₁, h₁, h₂⟩ := Except.bind_eq_ok.1 h
    obtain ⟨r, hr, rfl⟩ := setParam_eq_ok.1 h₁
    obtain ⟨hlen, rs, hrs, hall⟩ := argumentMapping_setParameters h₂
    refine ⟨Nat.succ_le_succ hlen, r :: rs, ?_, .cons hr hall⟩
    rw [hrs]
    simp [Context.setArg]

theorem argumentMapping_getElem? {PL : List τ} {args : List (Actual τ)} {i : ℕ}
    (h : setParameters PL C args = .ok C') (hempty : C.argumentMapping = [])
    (hP : PL[i]? = some P) (ha : args[i]? = some a) :
    ∃ r, C'.argumentMapping[i]? = some r ∧ recorded P a = .ok r := by
  obtain ⟨-, rs, hrs, hall⟩ := argumentMapping_setParameters h
  have hzip : (PL.zip args)[i]? = some (P, a) := by
    rw [List.getElem?_zip_eq_some]
    exact ⟨hP, ha⟩
  rw [hempty, List.nil_append] at hrs
  obtain ⟨hi, hget⟩ := List.getElem?_eq_some_iff.1 hzip
  have hi' : i < rs.length := by
    rw [← hall.length_eq]
    exact hi
  refine ⟨rs[i], by rw [hrs, List.getElem?_eq_getElem hi'], ?_⟩
  have hrec := (List.forall₂_iff_get.1 hall).2 i hi hi'
  simpa [hget] using hrec

theorem size_setParameters {PL : List τ} {args : List (Actual τ)}
    (h : setParameters PL C args = .ok C') (hempty : C.argumentMapping = []) :
    C'.size = PL.length := by
  obtain ⟨hlen, rs, hrs, hall⟩ := argumentMapping_setParameters h
  have hrs' := hall.length_eq
  rw [List.length_zip] at hrs'
  rw [Context.size, hrs, hempty, List.nil_append]
  omega

/-- What is recorded for a scalar parameter is made of the value it is initialised with. -/
theorem map_initialise_eq_ok {α β : Type} {value : Actual τ → τ → α} {f : α → β} {v : β} :
    (initialise P a value).map f = .ok v ↔ convertible a.type P = true ∧ f (value a P) = v := by
  unfold initialise
  split_ifs with h <;> simp [h, Except.map]

theorem recordedPlain_forwardIdx {r : Argument} (h : recordedPlain P a = .ok r) :
    r.forwardIdx = none := by
  unfold recordedPlain at h
  split at h
  · obtain ⟨-, rfl⟩ := map_initialise_eq_ok.1 h
    rfl
  · obtain ⟨-, rfl⟩ := map_initialise_eq_ok.1 h
    rfl
  · obtain ⟨-, rfl⟩ := map_initialise_eq_ok.1 h
    rfl
  · cases h
    rfl
  · cases h
  · cases h

/-- A placeholder is recorded as one, counted from zero, and nothing else is. -/
theorem recorded_forwardIdx {r : Argument} (h : recorded P a = .ok r) (k : ℕ) :
    r.forwardIdx = some k ↔ isPlaceholder a.type = k + 1 := by
  unfold recorded at h
  split_ifs at h with hph hfw
  · cases h
    simp only [Argument.forwardIdx, Option.some.injEq]
    omega
  · cases h
    simp [Argument.forwardIdx, not_not.1 hph]
  · rw [recordedPlain_forwardIdx h, not_not.1 hph]
    simp

/-! ## What the parameter would have received -/

theorem jitCall_eq_ok [DecidableEq τ] {PL params : List τ} {args : List (Actual τ)} :
    jitCall PL args = .ok (params, C) ↔ Meta.parameterList PL (args.map (·.type)) = .ok params
      ∧ PL.length ≤ args.length ∧ setParameters PL {} args = .ok C := by
  unfold jitCall getContextFor
  simp only [Except.bind_eq_ok, Except.ok.injEq, Prod.mk.injEq]
  constructor
  · rintro ⟨L, hL, D, hD, rfl, rfl⟩
    split_ifs at hD with hlen
    exact ⟨hL, by omega, hD⟩
  · rintro ⟨hL, hlen, hD⟩
    exact ⟨params, hL, C, by rw [if_neg (by omega), hD], rfl, rfl⟩

/-- Every argument that is neither a placeholder nor a wrapper can be converted to its parameter,
and is recorded as what the parameter would have received. -/
def CapturesReceived (PL : List τ) (args : List (Actual τ)) (C : Context) : Prop :=
  ∀ (i : ℕ) P a, PL[i]? = some P → args[i]? = some a → isSpecial a = false →
    ∃ r, received P a = some r ∧ C.argumentMapping[i]? = some r

/-- A class parameter's argument is converted to an object with the bytes of the argument itself,
and a scalar parameter's argument is converted by name as it is by itself. -/
def ConvertsUnchanged (P : τ) (a : Actual τ) : Prop :=
  if category P = .class then convertible a.type P = true ∧ toClass a P = a.bytes
  else received P a = received P a.named

theorem recorded_of_isSpecial (ha : isSpecial a = false) : recorded P a = recordedPlain P a := by
  unfold isSpecial at ha
  simp only [ne_eq, Bool.or_eq_false_iff, decide_eq_false_iff_not, not_not] at ha
  simp [recorded, ha.1, ha.2]

/-- Outside of class parameters, what is recorded is what the parameter would receive from the
argument's name. -/
theorem received_named {r : Argument} (hP : category P ≠ .class)
    (h : recordedPlain P a = .ok r) : received P a.named = some r := by
  unfold recordedPlain at h
  unfold received
  split at h
  · next hcat =>
    obtain ⟨hconv, rfl⟩ := map_initialise_eq_ok.1 h
    rw [if_pos hconv, hcat]
  · next hcat =>
    obtain ⟨hconv, rfl⟩ := map_initialise_eq_ok.1 h
    rw [if_pos hconv, hcat]
  · next hcat =>
    obtain ⟨hconv, rfl⟩ := map_initialise_eq_ok.1 h
    rw [if_pos hconv, hcat]
  · next hcat => exact absurd hcat hP
  · cases h
  · cases h

theorem recordedPlain_eq_received_iff {r : Argument} (h : recordedPlain P a = .ok r) :
    received P a = some r ↔ ConvertsUnchanged P a := by
  unfold ConvertsUnchanged
  by_cases hP : category P = .class
  · rw [recordedPlain, hP, Except.ok.injEq] at h
    rw [if_pos hP, received, hP, ← h]
    by_cases hconv : convertible a.type P = true
    · simp [hconv]
    · simp [hconv]
  · rw [if_neg hP, received_named hP h]

/-- A call that compiles records what the parameters would have received exactly when no class
parameter is given an argument with other bytes than the object it is converted to, and no scalar
parameter one that is converted differently by its name. -/
theorem jitCall_capturesReceived_iff [DecidableEq τ] {PL params : List τ}
    {args : List (Actual τ)} (h : jitCall PL args = .ok (params, C)) :
    CapturesReceived PL args C ↔ ∀ (i : ℕ) P a, PL[i]? = some P → args[i]? = some a →
      isSpecial a = false → ConvertsUnchanged P a := by
  obtain ⟨-, -, hC⟩ := jitCall_eq_ok.1 h
  unfold CapturesReceived
  refine forall_congr' fun i => forall_congr' fun P => forall_congr' fun a =>
    forall_congr' fun hP => forall_congr' fun ha => forall_congr' fun hplain => ?_
  obtain ⟨r, hr, hrec⟩ := argumentMapping_getElem? hC rfl hP ha
  rw [recorded_of_isSpecial hplain] at hrec
  rw [← recordedPlain_eq_received_iff hrec, hr]
  constructor
  · rintro ⟨r', hr', heq⟩
    rw [hr', heq]
  · intro hreceived
    exact ⟨r, hreceived, rfl⟩

section

open Sample

theorem jitCall_capturesReceived_iff_point :
    let args : List (Actual CppType) :=
      [object .point [1, 0, 0, 0, 2, 0, 0, 0], object .int [7, 0, 0, 0]]
    let C : Context := ⟨[.struct [1, 0, 0, 0, 2, 0, 0, 0], .int 7], 2, 0, "", [], {}⟩
    jitCall [.point, .int] args = .ok ([], C)
      ∧ (CapturesReceived [.point, .int] args C ↔ ∀ (i : ℕ) P a,
        [CppType.point, .int][i]? = some P → args[i]? = some a → isSpecial a = false →
          ConvertsUnchanged P a) := by
  intro args C
  have h : jitCall [.point, .int] args = .ok ([], C) := by decide
  exact ⟨h, jitCall_capturesReceived_iff h⟩

/-- An option in the place of a struct is taken for one. -/
theorem option_not_capturesReceived :
    let args : List (Actual CppType) := [object .optLevel [3, 0, 0, 0, 2, 0, 0, 0]]
    isOption (args[0].type) = true ∧ received .point args[0] = none
      ∧ ∃ C, jitCall [.point] args = .ok ([], C) ∧ ¬ CapturesReceived [.point] args C := by
  intro args
  have hnone : received .point args[0] = none := by decide
  refine ⟨by decide, hnone, ⟨[.struct [3, 0, 0, 0, 2, 0, 0, 0]], 2, 0, "", [], {}⟩, by decide,
    fun h => ?_⟩
  obtain ⟨r, hr, -⟩ := h 0 _ _ rfl rfl (by decide)
  cases hnone.symm.trans hr

end

end EasyJit
